import Mathlib
import LaunchGraph.Dot

/-!
# Names in drawings

Names of states consist of letters, digits and underscores, and a state can be told from its
name.  So it is with the identifiers of nodes: the last underscore sets off a number, and before
it stand the name and the launch number of the task, or what is left of them together with a
slot that no other node has.
-/

namespace LaunchGraph

/-!
## Names of states
-/

theorem all_isDigit_toString (n : Nat) : (toString n).toList.all Char.isDigit = true := by
  rw [List.all_eq_true, Nat.toString_eq_repr, Nat.toList_repr]
  intro c hc
  exact Nat.isDigit_of_mem_toDigits (by decide) (by decide) hc

theorem all_isAlphanum_toString (n : Nat) : (toString n).toList.all Char.isAlphanum = true := by
  rw [List.all_eq_true]
  intro c hc
  rw [Char.isAlphanum, List.all_eq_true.mp (all_isDigit_toString n) c hc, Bool.or_true]

theorem wordOfDigits?_toString (n : UInt32) : wordOfDigits? (toString n.toNat) = some n := by
  rw [wordOfDigits?, if_pos (all_isDigit_toString _), Nat.toString_eq_repr, Nat.toNat?_repr,
    Option.bind_some, if_pos n.toNat_lt_size, UInt32.ofNat_toNat]

theorem Resource.ofName?_name (r : Resource) : Resource.ofName? r.name = some r := by
  cases r with
  | snode s =>
      have hlist : (name (.snode s)).toList = 'S' :: (toString s.number.toNat).toList := by
        rw [name, String.toList_append]
        rfl
      rw [ofName?, hlist]
      show (wordOfDigits? (String.ofList (toString s.number.toNat).toList)).map _ = _
      rw [String.ofList_toList, wordOfDigits?_toString]
      rfl
  | globalTmp k =>
      have hlist : (name (.globalTmp k)).toList
          = 't' :: 'm' :: 'p' :: (toString k.number.toNat).toList := by
        rw [name, String.toList_append]
        rfl
      rw [ofName?, hlist]
      show (wordOfDigits? (String.ofList (toString k.number.toNat).toList)).map _ = _
      rw [String.ofList_toList, wordOfDigits?_toString]
      rfl

theorem Resource.all_isAlphanum_name (r : Resource) :
    r.name.toList.all Char.isAlphanum = true := by
  cases r with
  | snode s =>
      rw [name, String.toList_append, List.all_append, all_isAlphanum_toString]
      rfl
  | globalTmp k =>
      rw [name, String.toList_append, List.all_append, all_isAlphanum_toString]
      rfl

theorem StateKind.all_isAlphanum_name (k : StateKind) :
    k.name.toList.all Char.isAlphanum = true := by
  cases k with
  | value => rfl
  | mask => rfl
  | list => rfl
  | allocator => rfl

theorem StateKind.find?_name (k : StateKind) : StateKind.all.find? (·.name == k.name) = some k := by
  cases k with
  | value => rfl
  | mask => rfl
  | list => rfl
  | allocator => rfl

theorem not_mem_of_isAlphanum {text : String} (h : text.toList.all Char.isAlphanum = true)
    {x : Char} (hx : x.isAlphanum = false) : x ∉ text.toList := by
  intro hmem
  have hchar := List.all_eq_true.mp h x hmem
  rw [hx] at hchar
  cases hchar

theorem underscore_not_mem {text : String} (h : text.toList.all Char.isAlphanum = true) :
    '_' ∉ text.toList :=
  not_mem_of_isAlphanum h rfl

theorem State.ofName?_name (s : State) : State.ofName? s.name = some s := by
  have hname : s.name = (String.singleton '_').intercalate [s.resource.name, s.kind.name] := by
    rw [name, String.intercalate_cons_cons, String.intercalate_singleton]
    rfl
  have hplain : forall t, t ∈ [s.resource.name, s.kind.name] -> '_' ∉ t.toList := by
    intro t ht
    rcases List.mem_cons.mp ht with rfl | ht
    · exact underscore_not_mem s.resource.all_isAlphanum_name
    · rw [List.mem_singleton.mp ht]
      exact underscore_not_mem s.kind.all_isAlphanum_name
  have hparts : (s.name.split '_').toList.map (·.copy) = [s.resource.name, s.kind.name] := by
    rw [hname, String.toList_split_intercalate hplain, if_neg (by simp)]
  rw [ofName?, hparts]
  simp only [Resource.ofName?_name, StateKind.find?_name]
  rfl

namespace Dot

def IsWord (text : String) : Prop := text.toList.all isWordChar = true

theorem isWord_of_isAlphanum {text : String} (h : text.toList.all Char.isAlphanum = true) :
    IsWord text := by
  rw [IsWord, List.all_eq_true]
  intro c hc
  rw [isWordChar, List.all_eq_true.mp h c hc, Bool.true_or]

theorem IsWord.append {a b : String} (ha : IsWord a) (hb : IsWord b) : IsWord (a ++ b) := by
  rw [IsWord, String.toList_append, List.all_append, ha, hb]
  rfl

theorem isWord_toString (n : Nat) : IsWord (toString n) :=
  isWord_of_isAlphanum (all_isAlphanum_toString n)

theorem isWord_name (s : State) : IsWord s.name := by
  have hresource : IsWord s.resource.name := isWord_of_isAlphanum s.resource.all_isAlphanum_name
  have hkind : IsWord s.kind.name := isWord_of_isAlphanum s.kind.all_isAlphanum_name
  have hmark : IsWord "_" := rfl
  exact (hresource.append hmark).append hkind

/-!
## Identifiers of nodes
-/

theorem append_singleton_inj {x : Char} {a b c d : String} (hb : x ∉ b.toList) (hd : x ∉ d.toList)
    (h : a ++ String.singleton x ++ b = c ++ String.singleton x ++ d) : a = c ∧ b = d := by
  have hlists : b.toList.reverse ++ x :: a.toList.reverse
      = d.toList.reverse ++ x :: c.toList.reverse := by
    have hreverse := congrArg (fun t : String => t.toList.reverse) h
    simpa using hreverse
  have hplain : forall t : String, x ∉ t.toList ->
      forall y, y ∈ t.toList.reverse -> (y != x) = true := by
    intro t ht y hy
    rw [bne_iff_ne]
    rintro rfl
    exact ht (List.mem_reverse.mp hy)
  have htake := congrArg (List.takeWhile (· != x)) hlists
  rw [List.takeWhile_append_of_pos (hplain b hb), List.takeWhile_append_of_pos (hplain d hd),
    List.takeWhile_cons_of_neg (by simp), List.takeWhile_cons_of_neg (by simp),
    List.append_nil, List.append_nil, List.reverse_inj] at htake
  rw [htake] at hlists
  have hrest := List.append_cancel_left hlists
  rw [List.cons.injEq, List.reverse_inj] at hrest
  exact ⟨String.toList_inj.mp hrest.right, String.toList_inj.mp htake⟩

theorem append_underscore_inj {a b c d : String} (hb : '_' ∉ b.toList) (hd : '_' ∉ d.toList)
    (h : a ++ "_" ++ b = c ++ "_" ++ d) : a = c ∧ b = d :=
  append_singleton_inj hb hd h

theorem underscore_not_mem_toString (n : Nat) : '_' ∉ (toString n).toList :=
  underscore_not_mem (all_isAlphanum_toString n)

theorem underscore_not_mem_slot (n : Nat) : '_' ∉ ("x" ++ toString n).toList := by
  refine underscore_not_mem ?_
  rw [String.toList_append, List.all_append, all_isAlphanum_toString]
  rfl

theorem toString_inj {m n : Nat} (h : toString m = toString n) : m = n := by
  rw [Nat.toString_eq_repr, Nat.toString_eq_repr] at h
  exact Nat.repr_injective h

theorem append_left_cancel {a b c : String} (h : a ++ b = a ++ c) : b = c := by
  have hlists := congrArg String.toList h
  rw [String.toList_append, String.toList_append] at hlists
  exact String.toList_inj.mp (List.append_cancel_left hlists)

theorem toString_ne_slot (n slot : Nat) : toString n ≠ "x" ++ toString slot := by
  intro heq
  have hdigits := all_isDigit_toString n
  rw [heq, String.toList_append, List.all_append] at hdigits
  cases (Bool.and_eq_true _ _ ▸ hdigits).left

theorem isWord_identifier (name : String) (launchId slot : Nat) :
    IsWord (identifier name launchId slot) := by
  have hfirst : IsWord "n_" := rfl
  have hmark : IsWord "_" := rfl
  have hslot : IsWord "_x" := rfl
  rw [identifier]
  split
  · next hname =>
      have hword : IsWord name := hname
      exact ((hfirst.append hword).append hmark).append (isWord_toString launchId)
  · have hreplaced : IsWord (String.ofList (name.toList.map fun c =>
        if c.isAlphanum then c else '_')) := by
      rw [IsWord, String.toList_ofList, List.all_map, List.all_eq_true]
      intro c _
      rw [Function.comp_apply]
      split
      · next hc => rw [isWordChar, hc, Bool.true_or]
      · rfl
    exact ((((hfirst.append hreplaced).append hmark).append (isWord_toString launchId)).append
      hslot).append (isWord_toString slot)

/-- Nodes at different slots that share an identifier also share the name of their task and
the number of their launch. -/
theorem identifier_inj {name name' : String} {launchId launchId' slot slot' : Nat}
    (h : identifier name launchId slot = identifier name' launchId' slot')
    (hslot : slot ≠ slot') : name = name' ∧ launchId = launchId' := by
  have hmark : forall (a : String) (n : Nat), a ++ "_x" ++ toString n
      = a ++ "_" ++ ("x" ++ toString n) := by
    intro a n
    rw [String.append_assoc, String.append_assoc]
    rfl
  rw [identifier, identifier] at h
  split at h
  · split at h
    · rcases append_underscore_inj (underscore_not_mem_toString _) (underscore_not_mem_toString _) h
        with ⟨hname, hid⟩
      exact ⟨append_left_cancel hname, toString_inj hid⟩
    · rw [hmark] at h
      exact absurd (append_underscore_inj (underscore_not_mem_toString _)
        (underscore_not_mem_slot _) h).right (toString_ne_slot _ _)
  · split at h
    · rw [hmark] at h
      exact absurd (append_underscore_inj (underscore_not_mem_slot _)
        (underscore_not_mem_toString _) h).right.symm (toString_ne_slot _ _)
    · rw [hmark, hmark] at h
      have hsame := (append_underscore_inj (underscore_not_mem_slot _)
        (underscore_not_mem_slot _) h).right
      exact absurd (toString_inj (append_left_cancel hsame)) hslot

end Dot

end LaunchGraph
