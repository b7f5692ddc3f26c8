import RegexPositions.PositionSet.Lemmas
import RegexPositions.Tree.Follow.Basic

/-!
# What a follow table holds

An entry of a follow table is described by its positions. Adding a link puts its targets into
the entries of its sources and changes nothing else (`FollowTable.mem_entry_add`), so a position
is in an entry of the follow table of a tree exactly if some link of the tree puts it there
(`Tree.mem_entry_followTable`). The order in which the links are added leaves no trace.
-/

namespace RegexPositions

namespace FollowTable

/-- Extending an entry leaves as many entries. -/
@[simp] theorem size_extend (table : FollowTable) (p : Nat) (targets : PositionSet) :
    (table.extend p targets).size = table.size :=
  Array.size_modify

/-- Extending an entry adds targets to this one, if the table has it, and to no other. -/
theorem mem_entry_extend {table : FollowTable} {p q r : Nat} {targets : PositionSet} :
    q ∈ (table.extend r targets).entry p ↔
      q ∈ table.entry p ∨ p < table.size ∧ p = r ∧ q ∈ targets := by
  rw [entry, extend, Array.getElem?_modify, entry]
  by_cases hp : p < table.size
  · by_cases hr : r = p
    · simp [hr, hp]
    · simp [hr, hp, Ne.symm hr]
  · simp [hp]

/-- Adding a link leaves as many entries. -/
@[simp] theorem size_add (table : FollowTable) (link : Link) :
    (table.add link).size = table.size := by
  rw [add]
  generalize link.sources.toList = ps
  induction ps generalizing table with
  | nil => rfl
  | cons p ps ih => rw [List.foldl_cons, ih, size_extend]

/-- A link adds its targets to the entries of its sources. -/
theorem mem_entry_add {table : FollowTable} {link : Link} {p q : Nat} :
    q ∈ (table.add link).entry p ↔
      q ∈ table.entry p ∨ p < table.size ∧ p ∈ link.sources ∧ q ∈ link.targets := by
  rw [add, ← PositionSet.mem_toList (s := link.sources)]
  generalize link.sources.toList = ps
  induction ps generalizing table with
  | nil => simp
  | cons r ps ih =>
      rw [List.foldl_cons, ih, mem_entry_extend, size_extend, List.mem_cons]
      constructor
      · rintro ((h | ⟨hp, hr, hq⟩) | ⟨hp, hps, hq⟩)
        · exact .inl h
        · exact .inr ⟨hp, .inl hr, hq⟩
        · exact .inr ⟨hp, .inr hps, hq⟩
      · rintro (h | ⟨hp, hr | hps, hq⟩)
        · exact .inl (.inl h)
        · exact .inl (.inr ⟨hp, hr, hq⟩)
        · exact .inr ⟨hp, hps, hq⟩

/-- Adding links leaves as many entries. -/
theorem size_foldl_add (links : List Link) (table : FollowTable) :
    (links.foldl add table).size = table.size := by
  induction links generalizing table with
  | nil => rfl
  | cons link links ih => rw [List.foldl_cons, ih, size_add]

/-- Adding links adds to each entry the targets of the links that have it as a source. -/
theorem mem_entry_foldl_add {links : List Link} {table : FollowTable} {p q : Nat} :
    q ∈ (links.foldl add table).entry p ↔
      q ∈ table.entry p ∨
        p < table.size ∧ ∃ link ∈ links, p ∈ link.sources ∧ q ∈ link.targets := by
  induction links generalizing table with
  | nil => simp
  | cons link links ih =>
      rw [List.foldl_cons, ih, mem_entry_add, size_add]
      constructor
      · rintro ((h | ⟨hp, hl⟩) | ⟨hp, other, ho, hl⟩)
        · exact .inl h
        · exact .inr ⟨hp, link, List.mem_cons_self, hl⟩
        · exact .inr ⟨hp, other, List.mem_cons_of_mem _ ho, hl⟩
      · rintro (h | ⟨hp, other, ho, hl⟩)
        · exact .inl (.inl h)
        · rcases List.mem_cons.mp ho with rfl | ho
          · exact .inl (.inr ⟨hp, hl⟩)
          · exact .inr ⟨hp, other, ho, hl⟩

/-- All entries of a new table are empty. -/
theorem entry_replicate (n p : Nat) : entry (Array.replicate n ∅) p = ∅ := by
  by_cases hp : p < n <;> simp [entry, hp]

end FollowTable

/-- There is an entry for 0 and for each position. -/
@[simp] theorem Tree.size_followTable (tree : Tree) :
    tree.followTable.size = tree.leafCount + 1 := by
  rw [followTable, ← Array.foldl_toList, FollowTable.size_foldl_add, Array.size_replicate]

/-- The follow table of a tree holds what its links put there. -/
theorem Tree.mem_entry_followTable {tree : Tree} {p q : Nat} :
    q ∈ tree.followTable.entry p ↔
      p ≤ tree.leafCount ∧ ∃ link ∈ tree.links, p ∈ link.sources ∧ q ∈ link.targets := by
  rw [followTable, ← Array.foldl_toList, FollowTable.mem_entry_foldl_add,
    FollowTable.entry_replicate, Array.size_replicate, Nat.lt_succ_iff]
  simp

end RegexPositions
