import Mathlib.Data.List.Forall2
import LaunchGraph.Table

/-!
# Loops that may stop

A loop in `Except` runs to its end if every step does.  The lemmas carry an
invariant along, which may speak of the items that are done already.
-/

namespace LaunchGraph

section Loops

variable {ε α β : Type}

theorem ok_bind (a : α) (f : α -> Except ε β) : (Except.ok a >>= f) = f a := rfl

theorem foldlM_ok_of_step {f : β -> α -> Except ε β} {items : List α}
    (motive : List α -> β -> Prop)
    (step : forall done x rest b, items = done ++ x :: rest -> motive done b ->
      exists b', f b x = .ok b' ∧ motive (done ++ [x]) b')
    {b : β} (start : motive [] b) :
    exists b', items.foldlM f b = .ok b' ∧ motive items b' := by
  have key : forall rest done b, items = done ++ rest -> motive done b ->
      exists b', rest.foldlM f b = .ok b' ∧ motive items b' := by
    intro rest
    induction rest with
    | nil =>
        intro done b hitems hdone
        rw [List.append_nil] at hitems
        subst hitems
        exact ⟨b, rfl, hdone⟩
    | cons x rest ih =>
        intro done b hitems hdone
        rcases step done x rest b hitems hdone with ⟨b1, hb1, hnext⟩
        have hsplit : items = (done ++ [x]) ++ rest := by
          rw [hitems, List.append_assoc, List.singleton_append]
        rcases ih (done ++ [x]) b1 hsplit hnext with ⟨b', hb', hend⟩
        refine ⟨b', ?_, hend⟩
        rw [List.foldlM_cons, hb1, ok_bind]
        exact hb'
  exact key items [] b rfl start

theorem foldlM_ok_of_keeps {f : β -> α -> Except ε β} {items : List α}
    (motive : β -> Prop)
    (step : forall x, x ∈ items -> forall b, motive b ->
      exists b', f b x = .ok b' ∧ motive b')
    {b : β} (start : motive b) :
    exists b', items.foldlM f b = .ok b' ∧ motive b' := by
  refine foldlM_ok_of_step (fun _ => motive) ?_ start
  intro done x rest b hitems hb
  exact step x (by simp [hitems]) b hb

theorem mapM_ok_of_forall {f : α -> Except ε β} {value : α -> β} {items : List α}
    (h : forall x, x ∈ items -> f x = .ok (value x)) :
    items.mapM f = .ok (items.map value) := by
  induction items with
  | nil => rfl
  | cons x rest ih =>
      rw [List.mapM_cons, h x (List.mem_cons_self ..), ok_bind,
        ih (fun y hy => h y (List.mem_cons_of_mem _ hy)), ok_bind]
      rfl

theorem mapM_ok_of_exists {f : α -> Except ε β} {P : β -> Prop} {items : List α}
    (h : forall x, x ∈ items -> exists b, f x = .ok b ∧ P b) :
    exists bs, items.mapM f = .ok bs ∧ forall b, b ∈ bs -> P b := by
  induction items with
  | nil => exact ⟨[], rfl, fun b hb => by cases hb⟩
  | cons x rest ih =>
      rcases h x (List.mem_cons_self ..) with ⟨b, hb, hP⟩
      rcases ih (fun y hy => h y (List.mem_cons_of_mem _ hy)) with ⟨bs, hbs, hall⟩
      refine ⟨b :: bs, by rw [List.mapM_cons, hb, ok_bind, hbs, ok_bind]; rfl, ?_⟩
      intro c hc
      rcases List.mem_cons.mp hc with rfl | hc
      · exact hP
      · exact hall c hc

theorem forM_ok_of_forall {f : α -> Except ε Unit} {items : List α}
    (h : forall x, x ∈ items -> f x = .ok ()) : items.forM f = .ok () := by
  induction items with
  | nil => rfl
  | cons x rest ih =>
      show (f x >>= fun _ => rest.forM f) = .ok ()
      rw [h x (List.mem_cons_self ..), ok_bind]
      exact ih (fun y hy => h y (List.mem_cons_of_mem _ hy))

theorem forM_ok_iff {f : α -> Except ε Unit} {items : List α} :
    items.forM f = .ok () ↔ forall x, x ∈ items -> f x = .ok () := by
  refine ⟨?_, forM_ok_of_forall⟩
  intro h
  induction items with
  | nil =>
      intro x hx
      cases hx
  | cons y rest ih =>
      have hrun : (f y >>= fun _ => rest.forM f) = .ok () := h
      cases hy : f y with
      | error e =>
          rw [hy] at hrun
          cases hrun
      | ok a =>
          rw [hy, ok_bind] at hrun
          intro x hx
          rcases List.mem_cons.mp hx with rfl | hx
          · exact hy
          · exact ih hrun x hx

theorem exists_of_forM_error {f : α -> Except ε Unit} {items : List α} {e : ε}
    (h : items.forM f = .error e) : exists x, x ∈ items ∧ f x = .error e := by
  induction items with
  | nil => cases h
  | cons y rest ih =>
      have hrun : (f y >>= fun _ => rest.forM f) = .error e := h
      cases hy : f y with
      | error e' =>
          rw [hy] at hrun
          cases hrun
          exact ⟨y, List.mem_cons_self .., hy⟩
      | ok a =>
          rw [hy, ok_bind] at hrun
          rcases ih hrun with ⟨x, hx, hfx⟩
          exact ⟨x, List.mem_cons_of_mem _ hx, hfx⟩

theorem exists_of_mapM_error {f : α -> Except ε β} {items : List α} {e : ε}
    (h : items.mapM f = .error e) : exists x, x ∈ items ∧ f x = .error e := by
  induction items with
  | nil => cases h
  | cons y rest ih =>
      rw [List.mapM_cons] at h
      cases hy : f y with
      | error e' =>
          rw [hy] at h
          cases h
          exact ⟨y, List.mem_cons_self .., hy⟩
      | ok b =>
          rw [hy, ok_bind] at h
          cases hrest : rest.mapM f with
          | ok bs =>
              rw [hrest] at h
              cases h
          | error e' =>
              rw [hrest] at h
              cases h
              rcases ih hrest with ⟨x, hx, hfx⟩
              exact ⟨x, List.mem_cons_of_mem _ hx, hfx⟩

/-!
## What is returned
-/

/-- Whatever a computation ends with, if it ends, has a property. -/
def Yields (r : Except ε α) (P : α -> Prop) : Prop := forall a, r = .ok a -> P a

namespace Yields

variable {P : α -> Prop} {Q : β -> Prop}

theorem ok {a : α} (h : P a) : Yields (Except.ok a : Except ε α) P := by
  intro b hb
  cases hb
  exact h

theorem error (e : ε) : Yields (Except.error e : Except ε α) P := by
  intro b hb
  cases hb

theorem bind {r : Except ε α} {f : α -> Except ε β} (h : Yields r P)
    (hf : forall a, P a -> Yields (f a) Q) : Yields (r >>= f) Q := by
  cases r with
  | error e => exact error e
  | ok a => exact hf a (h a rfl)

theorem mono {Q : α -> Prop} {r : Except ε α} (h : Yields r P) (hPQ : forall a, P a -> Q a) :
    Yields r Q :=
  fun a ha => hPQ a (h a ha)

theorem bind_any {r : Except ε α} {f : α -> Except ε β} (hf : forall a, Yields (f a) Q) :
    Yields (r >>= f) Q :=
  bind (P := fun _ => True) (fun _ _ => trivial) fun a _ => hf a

theorem foldlM_of_step {f : β -> α -> Except ε β} {b : β} (motive : List α -> β -> Prop)
    (start : motive [] b)
    (step : forall done x b, motive done b -> Yields (f b x) (motive (done ++ [x])))
    (items : List α) : Yields (items.foldlM f b) (motive items) := by
  have key : forall rest done b, motive done b ->
      Yields (rest.foldlM f b) (motive (done ++ rest)) := by
    intro rest
    induction rest with
    | nil =>
        intro done b hdone
        rw [List.append_nil]
        exact ok hdone
    | cons x rest ih =>
        intro done b hdone
        rw [List.foldlM_cons, List.append_cons]
        exact bind (step done x b hdone) fun b' hb' => ih _ b' hb'
  exact key items [] b start

theorem foldlM {f : β -> α -> Except ε β} {b : β} (start : Q b)
    (step : forall b x, Q b -> Yields (f b x) Q) (items : List α) :
    Yields (items.foldlM f b) Q :=
  foldlM_of_step (fun _ => Q) start (fun _ x b hb => step b x hb) items

theorem foldlM_of_mem {f : β -> α -> Except ε β} {b : β} {items : List α} (start : Q b)
    (step : forall b x, x ∈ items -> Q b -> Yields (f b x) Q) : Yields (items.foldlM f b) Q := by
  induction items generalizing b with
  | nil => exact ok start
  | cons x items ih =>
      rw [List.foldlM_cons]
      refine bind (step b x (List.mem_cons_self ..) start) fun b' hb' => ih hb' ?_
      exact fun b y hy hb => step b y (List.mem_cons_of_mem _ hy) hb

theorem mapM {f : α -> Except ε β} {items : List α} (h : forall x, x ∈ items -> Yields (f x) Q) :
    Yields (items.mapM f) fun bs => forall b, b ∈ bs -> Q b := by
  induction items with
  | nil => exact ok fun b hb => by cases hb
  | cons x items ih =>
      rw [List.mapM_cons]
      refine bind (h x (List.mem_cons_self ..)) fun b hb => ?_
      refine bind (ih fun y hy => h y (List.mem_cons_of_mem _ hy)) fun bs hbs => ?_
      exact ok (List.forall_mem_cons.mpr ⟨hb, hbs⟩)

end Yields

/-!
## Two loops side by side
-/

/-- If the first computation ends with something, then so does the second, and what they
end with is related. -/
def Tracks {α' : Type} (P : α -> α' -> Prop) (r : Except ε α) (r' : Except ε α') : Prop :=
  forall a, r = .ok a -> exists a', r' = .ok a' ∧ P a a'

namespace Tracks

variable {α' β' : Type} {P : α -> α' -> Prop} {Q : β -> β' -> Prop}

theorem ok {a : α} {a' : α'} (h : P a a') : Tracks (ε := ε) P (.ok a) (.ok a') := by
  intro b hb
  cases hb
  exact ⟨a', rfl, h⟩

theorem bind {r : Except ε α} {r' : Except ε α'} {f : α -> Except ε β} {f' : α' -> Except ε β'}
    (h : Tracks P r r') (hf : forall a a', P a a' -> Tracks Q (f a) (f' a')) :
    Tracks Q (r >>= f) (r' >>= f') := by
  cases r with
  | error e =>
      intro b hb
      cases hb
  | ok a =>
      rcases h a rfl with ⟨a', hrun, ha⟩
      rw [hrun]
      exact hf a a' ha

theorem foldlM {f : β -> α -> Except ε β} {f' : β' -> α' -> Except ε β'} {items : List α}
    {items' : List α'} (hitems : List.Forall₂ P items items')
    (step : forall b b' x x', Q b b' -> P x x' -> Tracks Q (f b x) (f' b' x'))
    {b : β} {b' : β'} (start : Q b b') : Tracks Q (items.foldlM f b) (items'.foldlM f' b') := by
  induction hitems generalizing b b' with
  | nil => exact ok start
  | cons hx _ ih => exact bind (step _ _ _ _ start hx) fun _ _ h => ih h

end Tracks

end Loops

/-! ## Lists side by side -/

theorem exists_of_forall₂_left {α β : Type} {R : α -> β -> Prop} {l : List α} {m : List β}
    (h : List.Forall₂ R l m) : forall a, a ∈ l -> exists b, b ∈ m ∧ R a b := by
  induction h with
  | nil =>
      intro a ha
      cases ha
  | cons hab _ ih =>
      intro a ha
      rcases List.mem_cons.mp ha with rfl | ha
      · exact ⟨_, List.mem_cons_self .., hab⟩
      · rcases ih a ha with ⟨b, hb, hr⟩
        exact ⟨b, List.mem_cons_of_mem _ hb, hr⟩

theorem exists_of_forall₂_right {α β : Type} {R : α -> β -> Prop} {l : List α} {m : List β}
    (h : List.Forall₂ R l m) : forall b, b ∈ m -> exists a, a ∈ l ∧ R a b :=
  exists_of_forall₂_left h.flip

theorem forall₂_trans {α β γ : Type} {R : α -> β -> Prop} {S : β -> γ -> Prop}
    {T : α -> γ -> Prop} (hR : forall a b c, R a b -> S b c -> T a c)
    {l : List α} {m : List β} {n : List γ} (hlm : List.Forall₂ R l m)
    (hmn : List.Forall₂ S m n) : List.Forall₂ T l n := by
  induction hlm generalizing n with
  | nil =>
      cases hmn
      exact .nil
  | cons hab _ ih =>
      cases hmn with
      | cons hbc hmn => exact .cons (hR _ _ _ hab hbc) (ih hmn)

theorem length_eq_of_map_eq {α β γ : Type} {f : α -> γ} {g : β -> γ} {l : List α} {m : List β}
    (h : l.map f = m.map g) : l.length = m.length := by
  have hlength := congrArg List.length h
  rw [List.length_map, List.length_map] at hlength
  exact hlength

theorem eq_of_mem_zip {α β γ : Type} {f : α -> γ} {g : β -> γ} {l : List α} {m : List β}
    (h : l.map f = m.map g) {p : α × β} (hp : p ∈ l.zip m) : f p.1 = g p.2 := by
  induction l generalizing m with
  | nil => cases hp
  | cons a l ih =>
      cases m with
      | nil => cases hp
      | cons b m =>
          rcases List.cons.inj h with ⟨hab, hrest⟩
          rcases List.mem_cons.mp hp with rfl | hp
          · exact hab
          · exact ih hrest hp

theorem exists_pairs_of_map_eq {α β γ : Type} {f : α -> γ} {g : β -> γ} {l : List α}
    {m : List β} (h : l.map f = m.map g) :
    exists pairs : List (α × β), pairs.map (·.1) = l ∧ pairs.map (·.2) = m ∧
      forall p, p ∈ pairs -> f p.1 = g p.2 := by
  have hlength := length_eq_of_map_eq h
  exact ⟨l.zip m, List.map_fst_zip (Nat.le_of_eq hlength),
    List.map_snd_zip (Nat.le_of_eq hlength.symm), fun p hp => eq_of_mem_zip h hp⟩

/-! ## Tables -/

namespace Table

variable {κ α β ε : Type} [DecidableEq κ]

theorem traverse_ok {t : Table κ α} {f : κ -> α -> Except ε β}
    (h : forall k a, t.get? k = some a -> exists b, f k a = .ok b) :
    exists u, t.traverse f = .ok u ∧
      (forall k, t.get? k = none -> u.get? k = none) ∧
      (forall k a, t.get? k = some a -> exists b, f k a = .ok b ∧ u.get? k = some b) := by
  let motive : List (κ × α) -> Table κ β -> Prop := fun done u =>
    (forall k, k ∉ done.map (·.1) -> u.get? k = none) ∧
    (forall e, e ∈ done -> exists b, f e.1 e.2 = .ok b ∧ u.get? e.1 = some b)
  have loop : exists u, t.traverse f = .ok u ∧ motive t.entries u := by
    refine foldlM_ok_of_step motive ?_ ⟨fun k _ => rfl, fun e he => by cases he⟩
    intro done e rest u hentries hdone
    have hmem : e ∈ t.entries := by
      rw [hentries]
      simp
    rcases h e.1 e.2 (get?_eq_some_iff.mpr hmem) with ⟨b, hb⟩
    have hfresh : e.1 ∉ done.map (·.1) := by
      have hnodup := t.keys_nodup
      rw [hentries, List.map_append, List.map_cons, List.nodup_append] at hnodup
      intro hin
      exact hnodup.right.right e.1 hin e.1 (List.mem_cons_self ..) rfl
    refine ⟨u.set e.1 b, ?_, ?_, ?_⟩
    · rw [hb, ok_bind]
      rfl
    · intro k hk
      rw [List.map_append, List.mem_append, not_or] at hk
      have hne : k ≠ e.1 := by
        intro he
        exact hk.right (by simp [he])
      rw [get?_set, if_neg hne]
      exact hdone.left k hk.left
    · intro d hd
      rcases List.mem_append.mp hd with hd | hd
      · rcases hdone.right d hd with ⟨c, hc, hget⟩
        have hne : d.1 ≠ e.1 := by
          intro he
          exact hfresh (List.mem_map.mpr ⟨d, hd, he⟩)
        refine ⟨c, hc, ?_⟩
        rw [get?_set, if_neg hne]
        exact hget
      · rw [List.mem_singleton] at hd
        subst hd
        exact ⟨b, hb, by rw [get?_set, if_pos rfl]⟩
  rcases loop with ⟨u, hu, hnone, hsome⟩
  refine ⟨u, hu, ?_, ?_⟩
  · intro k hk
    exact hnone k (get?_eq_none_iff.mp hk)
  · intro k a hk
    exact hsome (k, a) (get?_eq_some_iff.mp hk)

theorem mem_values_iff {t : Table κ α} {a : α} : a ∈ t.values ↔ exists k, t.get? k = some a := by
  constructor
  · intro h
    rcases List.mem_map.mp h with ⟨e, he, rfl⟩
    exact ⟨e.1, get?_eq_some_iff.mpr he⟩
  · rintro ⟨k, hk⟩
    exact List.mem_map.mpr ⟨(k, a), get?_eq_some_iff.mp hk, rfl⟩

end Table

end LaunchGraph
