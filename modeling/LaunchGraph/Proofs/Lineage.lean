import Mathlib.Data.List.Perm.Basic
import LaunchGraph.Proofs.Course
import LaunchGraph.Proofs.Pass.DeadStores
import LaunchGraph.Proofs.Pass.Demotion
import LaunchGraph.Proofs.Pass.Fusion
import LaunchGraph.Proofs.Pass.Listgen

/-!
# What records are made of

Fusion makes one record of several, and other passes rewrite records.  Each record comes from
launches all the same, whatever the bank.  No step of a scheduler loses any of them on the way
from one graph to the next, unless it drops the whole record.
-/

namespace LaunchGraph

variable {ρ σ : Type}

/-- Whether launches of a task may be dropped. -/
def Config.MayDrop (c : Config) (t : Task) : Prop :=
  (c.deadStores = true ∧ t.sideEffects = false) ∨
    ((c.listgen = true ∨ c.listgenFilter = true) ∧ t.taskType = .listgen)

def Bank.Rewrites (bank : Bank ρ) (record rewritten : ρ) : Prop :=
  (exists model, bank.demote record model = some rewritten) ∨
    exists dead, bank.eliminateStores record dead = some rewritten

/-!
## From one list to the next
-/

def Rewritten (bank : Bank ρ) (p q : Option ρ × Task) : Prop :=
  exists record rewritten, p.1 = some record ∧ bank.Rewrites record rewritten ∧
    q = Graph.launchOf bank rewritten

/-- What is pending before a pass and after it: each node that is left was rewritten or fused
from some that there were, in this order.  All others may be dropped. -/
inductive Descends (config : Config) (bank : Bank ρ) :
    List (Option ρ × Task) -> List (Option ρ × Task) -> Prop where
  | nil : Descends config bank [] []
  | rewrite {p q : Option ρ × Task} {before after : List (Option ρ × Task)}
      (steps : Relation.ReflTransGen (Rewritten bank) p q)
      (rest : Descends config bank before after) :
      Descends config bank (p :: before) (q :: after)
  | fuse {group before after : List (Option ρ × Task)} {p : Option ρ × Task}
      (fused : FusedFrom bank group p) (rest : Descends config bank before after) :
      Descends config bank (group ++ before) (p :: after)
  | drop {p : Option ρ × Task} {before after : List (Option ρ × Task)}
      (droppable : config.MayDrop p.2) (rest : Descends config bank before after) :
      Descends config bank (p :: before) after

section Passes

variable {bank : Bank ρ} {config : Config} {before after : List (Option ρ × Task)}

theorem Demotes.rewritten {p q : Option ρ × Task} (h : Demotes bank p q) :
    Rewritten bank p q := by
  rcases h with ⟨record, model, demoted, _, hrecord, hdemote, hlaunch, _⟩
  exact ⟨record, demoted, hrecord, Or.inl ⟨model, hdemote⟩, hlaunch⟩

theorem descends_of_demotes
    (h : List.Forall₂ (Relation.ReflTransGen (Demotes bank)) before after) :
    Descends config bank before after := by
  induction h with
  | nil => exact .nil
  | cons hpq _ ih =>
      exact .rewrite (Relation.ReflTransGen.mono (fun _ _ => Demotes.rewritten) _ _ hpq) ih

theorem descends_of_fused {groups : List (List (Vertex ρ))}
    (h : List.Forall₂ (fun group p => FusedFrom bank (group.map (·.launch)) p) groups after) :
    Descends config bank (groups.flatten.map (·.launch)) after := by
  induction h with
  | nil => exact .nil
  | cons hfused _ ih =>
      rw [List.flatten_cons, List.map_append]
      exact .fuse hfused ih

theorem descends_filter (hlistgen : config.listgen = true) {kept : Vertex ρ -> Bool}
    (l : List (Vertex ρ))
    (htype : forall v, v ∈ l -> kept v = false -> v.task.taskType = .listgen) :
    Descends config bank (l.map (·.launch)) ((l.filter kept).map (·.launch)) := by
  induction l with
  | nil => exact .nil
  | cons v l ih =>
      have hrest := ih fun w hw => htype w (List.mem_cons_of_mem _ hw)
      cases hkept : kept v with
      | true =>
          rw [List.filter_cons_of_pos hkept]
          exact .rewrite .refl hrest
      | false =>
          rw [List.filter_cons_of_neg (by rw [hkept]; exact Bool.false_ne_true)]
          have hgen := htype v (List.mem_cons_self ..) hkept
          exact .drop (Or.inr ⟨Or.inl hlistgen, hgen⟩) hrest

namespace Graph

theorem Swept.descends (hdead : config.deadStores = true) {g : Graph ρ} {l : List (Vertex ρ)}
    (h : g.Swept bank l after) : Descends config bank (l.map (·.launch)) after := by
  induction h with
  | nil => exact .nil
  | keep _ ih => exact .rewrite .refl ih
  | delete judged _ ih =>
      cases judged with
      | delete quiet _ => exact .drop (Or.inl ⟨hdead, quiet⟩) ih
  | @strip v stripped rest after judged _ ih =>
      cases judged with
      | @strip own _ dead hown _ eliminated _ _ =>
          exact .rewrite (.single ⟨own, stripped, hown, Or.inr ⟨dead, eliminated⟩, rfl⟩) ih

/-- A pass that a configuration asks for goes through, and makes what is pending after it from
what was pending before, up to the order. -/
theorem run_descends (bank : Bank ρ) {g : Graph ρ} (hg : g.Consistent) {pass : Pass}
    (hpass : pass ∈ config.passes) :
    exists g' changed before, pass.run bank g = .ok (g', changed) ∧ g.Rebuilt g' ∧
      before.Perm (g.pending.map (·.launch)) ∧
      Descends config bank before (g'.pending.map (·.launch)) := by
  have hasked := Config.asksFor_of_mem hpass
  cases pass with
  | listgen =>
      rcases optimizeListgen_ok hg with ⟨g', changed, hrun, hrebuilt, kept, hkept, htype⟩
      refine ⟨g', changed, _, hrun, hrebuilt, .refl _, ?_⟩
      rw [hkept]
      exact descends_filter hasked g.pending htype
  | deadStores =>
      rcases eliminateDeadStores_ok bank hg.sound hg.forward
        with ⟨g', changed, hrun, hrebuilt, hswept⟩
      exact ⟨g', changed, _, hrun, hrebuilt, .refl _, hswept.descends hasked⟩
  | demotion =>
      rcases demoteActivations_ok bank hg.sound hg.forward
        with ⟨g', changed, hrun, hrebuilt, hdemoted⟩
      exact ⟨g', changed, _, hrun, hrebuilt, .refl _, descends_of_demotes hdemoted⟩
  | fusion =>
      rcases fuse_ok bank hg.sound hg.forward
        with ⟨g', changed, groups, hrun, hrebuilt, hregrouped⟩
      exact ⟨g', changed, _, hrun, hrebuilt, hregrouped.perm.map _,
        descends_of_fused hregrouped.fused⟩

end Graph

end Passes

/-!
## Lineages
-/

/-- Launches, the oldest first, that were fused and rewritten into a record. -/
inductive Bank.MadeOf (bank : Bank ρ) : ρ -> List ρ -> Prop where
  | launch (record : ρ) : MadeOf bank record [record]
  | rewrite {record rewritten : ρ} {launches : List ρ} (made : MadeOf bank record launches)
      (rewrites : bank.Rewrites record rewritten) : MadeOf bank rewritten launches
  | fuse {first next fused : ρ} {earlier later : List ρ} (first_made : MadeOf bank first earlier)
      (next_made : MadeOf bank next later) (fuses : bank.fuse first next = some fused) :
      MadeOf bank fused (earlier ++ later)

/-- A record together with launches that it is made of. -/
structure Lineage (bank : Bank ρ) where
  record : ρ
  launches : List ρ
  made : bank.MadeOf record launches

namespace Lineage

variable {bank : Bank ρ}

def launch (d : Lineage bank) : Option ρ × Task := Graph.launchOf bank d.record

def single (bank : Bank ρ) (record : ρ) : Lineage bank := ⟨record, [record], .launch record⟩

def roots (ds : List (Lineage bank)) : List ρ := ds.flatMap (·.launches)

@[simp] theorem roots_nil : roots ([] : List (Lineage bank)) = [] := rfl

@[simp] theorem roots_cons (d : Lineage bank) (ds : List (Lineage bank)) :
    roots (d :: ds) = d.launches ++ roots ds := List.flatMap_cons

@[simp] theorem roots_append (ds es : List (Lineage bank)) :
    roots (ds ++ es) = roots ds ++ roots es := List.flatMap_append

@[simp] theorem roots_single (records : List ρ) : roots (records.map (single bank)) = records := by
  rw [roots, List.flatMap_map]
  exact List.flatMap_singleton' records

end Lineage

section Lineages

variable {bank : Bank ρ} {config : Config} {before after : List (Option ρ × Task)}

theorem exists_lineage_of_rewritten {p q : Option ρ × Task}
    (h : Relation.ReflTransGen (Rewritten bank) p q) {d : Lineage bank} (hp : p = d.launch) :
    exists d' : Lineage bank, q = d'.launch ∧ d'.launches = d.launches := by
  induction h with
  | refl => exact ⟨d, hp, rfl⟩
  | tail _ hstep ih =>
      rcases ih with ⟨d1, rfl, hlaunches⟩
      rcases hstep with ⟨record, rewritten, hrecord, hrewrites, rfl⟩
      cases hrecord
      exact ⟨⟨rewritten, d1.launches, d1.made.rewrite hrewrites⟩, rfl, hlaunches⟩

theorem FusedFrom.exists_lineage {group : List (Option ρ × Task)} {p : Option ρ × Task}
    (h : FusedFrom bank group p) {ds : List (Lineage bank)} (hgroup : group = ds.map (·.launch)) :
    exists d : Lineage bank, p = d.launch ∧ d.launches = Lineage.roots ds := by
  induction h generalizing ds with
  | single p =>
      rcases List.map_eq_singleton_iff.mp hgroup.symm with ⟨d, rfl, rfl⟩
      exact ⟨d, rfl, (List.flatMap_singleton ..).symm⟩
  | @fuse group first next fused t u _ _ _ made ih =>
      rcases List.append_eq_map_iff.mp hgroup with ⟨earlier, last, rfl, hearlier, hlast⟩
      rcases List.map_eq_singleton_iff.mp hlast with ⟨d, rfl, hd⟩
      rcases ih hearlier.symm with ⟨d1, hd1, hroots⟩
      have hfirst : d1.record = first := (Option.some.inj (Prod.mk.inj hd1).left).symm
      have hnext : d.record = next := Option.some.inj (Prod.mk.inj hd).left
      rw [← hfirst, ← hnext] at made
      refine ⟨⟨fused, d1.launches ++ d.launches, .fuse d1.made d.made made⟩, rfl, ?_⟩
      show d1.launches ++ d.launches = _
      rw [hroots, Lineage.roots_append, Lineage.roots_cons, Lineage.roots_nil, List.append_nil]

def HandsOn (config : Config) (bank : Bank ρ) (entered : List ρ)
    (before after : List (Option ρ × Task)) : Prop :=
  forall ds : List (Lineage bank), before = ds.map (·.launch) ->
    exists ds' dropped : List (Lineage bank), after = ds'.map (·.launch) ∧
      (forall d, d ∈ dropped -> config.MayDrop (bank.describe d.record).task) ∧
      (Lineage.roots ds' ++ Lineage.roots dropped).Perm (Lineage.roots ds ++ entered)

namespace HandsOn

variable {between : List (Option ρ × Task)} {entered more : List ρ}

theorem refl (config : Config) (bank : Bank ρ) (l : List (Option ρ × Task)) :
    HandsOn config bank [] l l := by
  intro ds hds
  exact ⟨ds, [], hds, fun d hd => (List.not_mem_nil hd).elim, .refl _⟩

theorem trans (h1 : HandsOn config bank entered before between)
    (h2 : HandsOn config bank more between after) :
    HandsOn config bank (entered ++ more) before after := by
  intro ds hds
  rcases h1 ds hds with ⟨ds1, dropped1, rfl, hdropped1, hperm1⟩
  rcases h2 ds1 rfl with ⟨ds2, dropped2, hafter, hdropped2, hperm2⟩
  refine ⟨ds2, dropped2 ++ dropped1, hafter, ?_, ?_⟩
  · intro d hd
    cases List.mem_append.mp hd with
    | inl hd => exact hdropped2 d hd
    | inr hd => exact hdropped1 d hd
  · rw [Lineage.roots_append, ← List.append_assoc, ← List.append_assoc]
    have hswap : (Lineage.roots ds1 ++ more ++ Lineage.roots dropped1).Perm
        (Lineage.roots ds1 ++ Lineage.roots dropped1 ++ more) := by
      rw [List.append_assoc, List.append_assoc]
      exact List.perm_append_comm.append_left _
    exact (hperm2.append_right _).trans (hswap.trans (hperm1.append_right more))

theorem of_perm (hperm : between.Perm before) (h : HandsOn config bank entered between after) :
    HandsOn config bank entered before after := by
  rintro ds rfl
  have hlaunches : List.Forall₂ (fun p d => p = d.launch) (ds.map Lineage.launch) ds := by
    rw [List.forall₂_map_left_iff, List.forall₂_same]
    exact fun _ _ => rfl
  rcases List.perm_comp_forall₂ hperm hlaunches with ⟨ds1, hbetween, hperm1⟩
  have hsame : between = ds1.map (·.launch) := by
    rw [← List.forall₂_eq_eq_eq, List.forall₂_map_right_iff]
    exact hbetween
  rcases h ds1 hsame with ⟨ds', dropped, hafter, hdropped, hroots⟩
  exact ⟨ds', dropped, hafter, hdropped,
    hroots.trans ((hperm1.flatMap_right _).append_right entered)⟩

end HandsOn

theorem Descends.handsOn (h : Descends config bank before after) :
    HandsOn config bank [] before after := by
  induction h with
  | nil =>
      rintro ds hds
      rw [List.map_eq_nil_iff.mp hds.symm]
      exact HandsOn.refl config bank [] [] rfl
  | @rewrite p q before after steps _ ih =>
      intro ds hds
      rcases List.map_eq_cons_iff.mp hds.symm with ⟨d, ds, rfl, hp, hrest⟩
      rcases exists_lineage_of_rewritten steps hp.symm with ⟨d', rfl, hlaunches⟩
      rcases ih ds hrest.symm with ⟨ds', dropped, rfl, hdropped, hperm⟩
      refine ⟨d' :: ds', dropped, rfl, hdropped, ?_⟩
      rw [Lineage.roots_cons, Lineage.roots_cons, hlaunches, List.append_assoc, List.append_assoc]
      exact hperm.append_left d.launches
  | @fuse group before after p fused _ ih =>
      intro ds hds
      rcases List.append_eq_map_iff.mp hds with ⟨first, ds, rfl, hgroup, hrest⟩
      rcases fused.exists_lineage hgroup.symm with ⟨d', rfl, hlaunches⟩
      rcases ih ds hrest.symm with ⟨ds', dropped, rfl, hdropped, hperm⟩
      refine ⟨d' :: ds', dropped, rfl, hdropped, ?_⟩
      rw [Lineage.roots_cons, Lineage.roots_append, hlaunches, List.append_assoc,
        List.append_assoc]
      exact hperm.append_left (Lineage.roots first)
  | @drop p before after droppable _ ih =>
      intro ds hds
      rcases List.map_eq_cons_iff.mp hds.symm with ⟨d, ds, rfl, hp, hrest⟩
      rcases ih ds hrest.symm with ⟨ds', dropped, rfl, hdropped, hperm⟩
      refine ⟨ds', d :: dropped, rfl, ?_, ?_⟩
      · rw [← hp] at droppable
        exact List.forall_mem_cons.mpr ⟨droppable, hdropped⟩
      · have hswap : (Lineage.roots ds' ++ (d.launches ++ Lineage.roots dropped)).Perm
            (d.launches ++ (Lineage.roots ds' ++ Lineage.roots dropped)) :=
          List.perm_append_comm_assoc ..
        rw [Lineage.roots_cons, Lineage.roots_cons, List.append_assoc]
        exact hswap.trans (hperm.append_left d.launches)

/-!
## Graphs
-/

namespace Graph

def PassesOn (config : Config) (bank : Bank ρ) (entered : List ρ) (g g' : Graph ρ) : Prop :=
  HandsOn config bank entered (g.pending.map (·.launch)) (g'.pending.map (·.launch))

theorem PassesOn.refl (config : Config) (bank : Bank ρ) (g : Graph ρ) :
    PassesOn config bank [] g g :=
  HandsOn.refl config bank _

/-- A graph as a scheduler has it: every pending node launches a record as the bank describes
it. -/
structure Fit (bank : Bank ρ) (g : Graph ρ) : Prop where
  consistent : g.Consistent
  launches : exists ds : List (Lineage bank), g.pending.map (·.launch) = ds.map (·.launch)

theorem Settled.fit {g : Graph ρ} (h : g.Settled) (bank : Bank ρ) : g.Fit bank := by
  refine ⟨h.built.consistent, [], ?_⟩
  rw [h.pending_nil]
  rfl

theorem Fit.passOn {g g' : Graph ρ} {entered : List ρ} (h : g.Fit bank)
    (hg' : g'.Consistent) (hpass : PassesOn config bank entered g g') : g'.Fit bank := by
  rcases h.launches with ⟨ds, hds⟩
  rcases hpass ds hds with ⟨ds', _, hds', _, _⟩
  exact ⟨hg', ds', hds'⟩

section Steps

variable {g : Graph ρ} (hg : g.Consistent)

include hg

theorem run_passesOn (bank : Bank ρ) {pass : Pass} (hpass : pass ∈ config.passes) :
    exists g' changed, pass.run bank g = .ok (g', changed) ∧ g'.Consistent ∧
      PassesOn config bank [] g g' := by
  rcases run_descends bank hg hpass with ⟨g', changed, before, hrun, hrebuilt, hperm, hdescends⟩
  exact ⟨g', changed, hrun, hrebuilt.consistent hg, hdescends.handsOn.of_perm hperm⟩

/-- A round of passes loses no launch, unless it drops a record. -/
theorem runPasses_passesOn (config : Config) (bank : Bank ρ) :
    exists g' changed, config.runPasses bank g = .ok (g', changed) ∧ g'.Consistent ∧
      PassesOn config bank [] g g' := by
  let I : Graph ρ -> Prop := fun g' => g'.Consistent ∧ PassesOn config bank [] g g'
  refine Config.runPasses_ok (I := I) (fun _ h => h.left) ⟨hg, .refl config bank g⟩ ?_
  rintro pass hpass g1 ⟨hg1, hon⟩
  rcases run_passesOn hg1 bank hpass with ⟨g2, changed, hrun, hg2, hon'⟩
  exact ⟨g2, changed, hrun, hg2, hon.trans hon'⟩

theorem insertTasks_passesOn (config : Config) (bank : Bank ρ) (records : List ρ) :
    exists g' inserted, g.insertTasks bank config.listgenFilter records = .ok (g', inserted) ∧
      g'.Consistent ∧ PassesOn config bank records g g' := by
  rcases insertTasks_ok bank hg.sound config.listgenFilter records
    with ⟨g', kept, hrun, hgrown, _, leftOut, hperm, hleft⟩
  refine ⟨g', kept.length, hrun, hgrown.consistent hg, ?_⟩
  intro ds hds
  refine ⟨ds ++ kept.map (.single bank), leftOut.map (.single bank), ?_, ?_, ?_⟩
  · rw [hgrown.launches, hds, List.map_append, List.map_map]
    rfl
  · intro d hd
    rcases List.mem_map.mp hd with ⟨r, hr, rfl⟩
    exact Or.inr ⟨Or.inr (hleft r hr).left, (hleft r hr).right⟩
  · rw [Lineage.roots_append, Lineage.roots_single, Lineage.roots_single, List.append_assoc]
    exact hperm.append_left _

end Steps

end Graph

end Lineages

end LaunchGraph
