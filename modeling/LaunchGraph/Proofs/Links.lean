import LaunchGraph.Links

/-!
# Neighbors

Links are determined, up to the order in which they are kept, by which node is
a neighbor through which state.  Each operation on links is described by what
it does to that relation.
-/

namespace LaunchGraph
namespace Links

theorem contains_iff {l : Links} {s : State} {k : NodeKey} :
    l.contains s k = true ↔ k ∈ l.get s :=
  decide_eq_true_iff

theorem mem_get_insert {l : Links} {s t : State} {k j : NodeKey} :
    j ∈ (l.insert s k).get t ↔ j ∈ l.get t ∨ (t = s ∧ j = k) := by
  rw [get_insert]
  by_cases ht : t = s
  · subst ht
    by_cases hk : k ∈ l.get t
    · simp only [hk, not_true_eq_false, and_false, if_false, true_and]
      constructor
      · exact Or.inl
      · rintro (h | h)
        · exact h
        · exact h ▸ hk
    · simp [hk]
  · simp [ht]

theorem mem_get_erase {l : Links} {s t : State} {k j : NodeKey} :
    j ∈ (l.erase s k).get t ↔ j ∈ l.get t ∧ ¬(t = s ∧ j = k) := by
  rw [erase, get_filter, List.mem_filter, Bool.not_eq_true', ← Bool.not_eq_true,
    Bool.and_eq_true, beq_iff_eq, beq_iff_eq]

theorem mem_get_eraseNode {l : Links} {s : State} {k j : NodeKey} :
    j ∈ (l.eraseNode k).get s ↔ j ∈ l.get s ∧ j ≠ k := by
  rw [eraseNode, get_filter, List.mem_filter]
  simp

theorem mem_get_eraseState {l : Links} {s t : State} {j : NodeKey} :
    j ∈ (l.eraseState s).get t ↔ t ≠ s ∧ j ∈ l.get t := by
  rw [eraseState, get_filter, List.mem_filter]
  simp [and_comm]

theorem mem_substitute {a b j : NodeKey} {ks : List NodeKey} :
    j ∈ substitute a b ks ↔ exists i, i ∈ ks ∧ (if i = a then b else i) = j := by
  rw [substitute]
  by_cases hb : b ∈ ks
  · by_cases hab : a = b
    · subst hab
      rw [if_pos hb, if_pos rfl]
      constructor
      · intro hj
        refine ⟨j, hj, ?_⟩
        split
        · next h => exact h.symm
        · rfl
      · rintro ⟨i, hi, rfl⟩
        split
        · exact hb
        · exact hi
    · rw [if_pos hb, if_neg hab, List.mem_filter]
      constructor
      · rintro ⟨hj, hne⟩
        refine ⟨j, hj, if_neg ?_⟩
        simpa using hne
      · rintro ⟨i, hi, rfl⟩
        split
        · exact ⟨hb, by simpa using Ne.symm hab⟩
        · next hia => exact ⟨hi, by simpa using hia⟩
  · rw [if_neg hb, List.mem_map]

theorem mem_get_replace {l : Links} {a b j : NodeKey} {s : State} :
    j ∈ (l.replace a b).get s ↔ exists i, i ∈ l.get s ∧ (if i = a then b else i) = j := by
  rw [get_replace, mem_substitute]

theorem mem_get_iff {l : Links} {s : State} {k : NodeKey} :
    k ∈ l.get s ↔ exists ks, (s, ks) ∈ l.entries ∧ k ∈ ks := by
  rw [get]
  cases h : l.byState.get? s with
  | none =>
      simp only [Option.getD_none, List.not_mem_nil, false_iff]
      rintro ⟨ks, hks, _⟩
      rw [Table.get?_eq_some_iff.mpr hks] at h
      cases h
  | some ks =>
      rw [Option.getD_some]
      constructor
      · intro hk
        exact ⟨ks, Table.get?_eq_some_iff.mp h, hk⟩
      · rintro ⟨js, hjs, hk⟩
        rw [Table.get?_eq_some_iff.mpr hjs] at h
        cases h
        exact hk

theorem mem_pairs {l : Links} {s : State} {k : NodeKey} :
    (s, k) ∈ l.pairs ↔ k ∈ l.get s := by
  rw [mem_get_iff, pairs, List.mem_flatMap]
  constructor
  · rintro ⟨e, he, hk⟩
    rcases List.mem_map.mp hk with ⟨j, hj, hpair⟩
    cases hpair
    exact ⟨e.2, he, hj⟩
  · rintro ⟨ks, hks, hk⟩
    exact ⟨(s, ks), hks, List.mem_map.mpr ⟨k, hk, rfl⟩⟩

theorem mem_neighbors {l : Links} {k : NodeKey} :
    k ∈ l.neighbors ↔ exists s, k ∈ l.get s := by
  rw [neighbors, List.mem_flatMap]
  constructor
  · rintro ⟨e, he, hk⟩
    exact ⟨e.1, mem_get_iff.mpr ⟨e.2, he, hk⟩⟩
  · rintro ⟨s, hk⟩
    rcases mem_get_iff.mp hk with ⟨ks, hks, hk⟩
    exact ⟨(s, ks), hks, hk⟩

theorem nodup_of_mem_entries {l : Links} {e : State × List NodeKey} (he : e ∈ l.entries) :
    e.2 ≠ [] ∧ e.2.Nodup :=
  l.wellFormed e.1 e.2 (Table.get?_eq_some_iff.mpr he)

theorem eq_empty_of_forall_not_mem {l : Links} (h : forall s k, k ∉ l.get s) : l = ∅ := by
  have hentries : l.byState = ∅ := by
    apply Table.eq_of_entries_eq
    refine List.eq_nil_iff_forall_not_mem.mpr ?_
    rintro ⟨s, ks⟩ hmem
    have hget := Table.get?_eq_some_iff.mpr hmem
    rcases l.wellFormed s ks hget with ⟨hne, _⟩
    rcases List.exists_mem_of_ne_nil ks hne with ⟨k, hk⟩
    exact h s k (mem_get_iff.mpr ⟨ks, hmem, hk⟩)
  cases l with
  | mk byState wellFormed =>
      cases hentries
      rfl

end Links
end LaunchGraph
