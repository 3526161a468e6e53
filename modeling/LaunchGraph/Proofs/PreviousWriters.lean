import LaunchGraph.Proofs.Deletion

/-!
# Previous writers

The way back along the writers of a state has no bound of its own.  It ends where positions
fall along the edges, whatever the graph is otherwise: every step leads to a node at a lower
position, and there are only so many of those.

In a session the way back finds a fact about the sequence.  Whichever pending nodes are passed
by, it leads to the last pending node before that writes the state and is none of them, or to the
node that owned the state when the session last rested.
-/

namespace LaunchGraph

variable {ρ : Type}

namespace Graph

def Ascending (g : Graph ρ) : Prop :=
  forall v s k u, v ∈ g.vertices -> k ∈ v.inputs.get s -> g.find? k = some u ->
    u.nodeId < v.nodeId

def HasSources (g : Graph ρ) (s : State) : Prop :=
  forall v k, v ∈ g.vertices -> k ∈ v.inputs.get s -> k ∈ g.keys

theorem Sound.hasSources {g : Graph ρ} (hg : g.Sound) (s : State) : g.HasSources s := by
  intro v k hv hk
  exact hg.wired.source_mem (hg.linked.enters_of_mem hv (Links.mem_pairs.mpr hk))

theorem Consistent.ascending {g : Graph ρ} (hg : g.Consistent) : g.Ascending := by
  intro v s k u hv hk hu
  have henters := hg.sound.linked.enters_of_mem hv (Links.mem_pairs.mpr hk)
  rw [hg.sound.numbered.nodeId_lt_iff hg.sound.keyed (mem_of_find? hu) hv, key_of_find? hu]
  exact hg.forward k v.key s henters

/-!
## One step
-/

def stepBack (g : Graph ρ) (s : State) (k : NodeKey) : Outcome (Option (Vertex ρ)) := do
  g.latestSource (← g.find k) s

theorem latestSource_yields (g : Graph ρ) (v : Vertex ρ) (s : State) :
    Yields (g.latestSource v s) fun o =>
      forall u, o = some u -> exists k, k ∈ v.inputs.get s ∧ g.find? k = some u := by
  have hsources : Yields ((v.inputs.get s).mapM g.find) fun us =>
      forall u, u ∈ us -> exists k, k ∈ v.inputs.get s ∧ g.find? k = some u := by
    apply Yields.mapM
    intro k hk u hu
    exact ⟨k, hk, find_eq_ok_iff.mp hu⟩
  rw [latestSource]
  refine hsources.bind fun us hus => Yields.ok ?_
  intro u hu
  rcases (foldl_laterOf _ none).right u hu with ⟨hmem, _⟩
  rcases hmem with hmem | hnone
  · exact hus u (List.mem_filter.mp hmem).left
  · cases hnone

theorem stepBack_some {g : Graph ρ} {s : State} {k : NodeKey} {u : Vertex ρ}
    (h : g.stepBack s k = .ok (some u)) :
    exists v, g.find? k = some v ∧ u.key ∈ v.inputs.get s ∧ g.find? u.key = some u := by
  rw [stepBack] at h
  cases hfind : g.find k with
  | error e =>
      rw [hfind] at h
      cases h
  | ok v =>
      rw [hfind, ok_bind] at h
      rcases g.latestSource_yields v s _ h u rfl with ⟨j, hj, hu⟩
      have hkey := key_of_find? hu
      subst hkey
      exact ⟨v, find_eq_ok_iff.mp hfind, hj, hu⟩

theorem stepBack_error {g : Graph ρ} {s : State} {k : NodeKey} {e : Fault}
    (h : g.stepBack s k = .error e) : exists j, e = .staleKey j := by
  rw [stepBack] at h
  cases hfind : g.find k with
  | error e' =>
      rw [hfind] at h
      cases h
      exact ⟨k, find_error hfind⟩
  | ok v =>
      rw [hfind, ok_bind, latestSource] at h
      cases hsources : (v.inputs.get s).mapM g.find with
      | ok us =>
          rw [hsources] at h
          cases h
      | error e' =>
          rw [hsources] at h
          cases h
          rcases exists_of_mapM_error hsources with ⟨j, _, hj⟩
          exact ⟨j, find_error hj⟩

theorem stepBack_ok {g : Graph ρ} {s : State} (hsources : g.HasSources s) {k : NodeKey}
    (hk : k ∈ g.keys) : exists o, g.stepBack s k = .ok o := by
  rw [stepBack, find_vertexOf hk, ok_bind, latestSource,
    mapM_find_ok fun j hj => hsources _ j (vertexOf_mem hk) hj]
  exact ⟨_, rfl⟩

/-!
## The whole way
-/

/-- How the way back ends if it may take any number of steps. -/
inductive GoesBack (g : Graph ρ) (s : State) (skip : List NodeKey) :
    NodeKey -> Outcome NodeKey -> Prop where
  | fault {k : NodeKey} {e : Fault} (step : g.stepBack s k = .error e) :
      GoesBack g s skip k (.error e)
  | root {k : NodeKey} (step : g.stepBack s k = .ok none) :
      GoesBack g s skip k (.ok g.initial.key)
  | stop {k : NodeKey} {u : Vertex ρ} (step : g.stepBack s k = .ok (some u))
      (out : u.key ∉ skip) : GoesBack g s skip k (.ok u.key)
  | pass {k : NodeKey} {u : Vertex ρ} {r : Outcome NodeKey}
      (step : g.stepBack s k = .ok (some u)) (skipped : u.key ∈ skip)
      (rest : GoesBack g s skip u.key r) : GoesBack g s skip k r

theorem GoesBack.fault_stale {g : Graph ρ} {s : State} {skip : List NodeKey} {k : NodeKey}
    {r : Outcome NodeKey} (h : GoesBack g s skip k r) {e : Fault} (he : r = .error e) :
    exists j, e = .staleKey j := by
  induction h with
  | fault step =>
      cases he
      exact stepBack_error step
  | root step => cases he
  | stop step out => cases he
  | pass step skipped rest ih => exact ih he

theorem GoesBack.arrives {g : Graph ρ} {s : State} (hsources : g.HasSources s)
    {skip : List NodeKey} {k : NodeKey} {r : Outcome NodeKey} (h : GoesBack g s skip k r)
    (hk : k ∈ g.keys) : exists w, r = .ok w := by
  induction h with
  | fault step =>
      rcases stepBack_ok hsources hk with ⟨o, ho⟩
      rw [ho] at step
      cases step
  | root step => exact ⟨_, rfl⟩
  | stop step out => exact ⟨_, rfl⟩
  | pass step skipped rest ih =>
      rcases stepBack_some step with ⟨_, _, _, hu⟩
      exact ih (mem_keys_of_find? hu)

def below (g : Graph ρ) (n : Nat) : Nat := g.vertices.countP (·.nodeId < n)

theorem below_lt {g : Graph ρ} {u : Vertex ρ} (hu : u ∈ g.vertices) {n : Nat}
    (h : u.nodeId < n) : g.below u.nodeId < g.below n := by
  have hmono : forall l : List (Vertex ρ),
      l.countP (·.nodeId < u.nodeId) ≤ l.countP (·.nodeId < n) := by
    intro l
    apply List.countP_mono_left
    intro v _ hv
    rw [decide_eq_true_iff] at hv ⊢
    exact Nat.lt_trans hv h
  rcases List.append_of_mem hu with ⟨a, b, hsplit⟩
  have ha := hmono a
  have hb := hmono b
  rw [below, below, hsplit, List.countP_append, List.countP_append,
    List.countP_cons_of_neg (by simp), List.countP_cons_of_pos (by simp [h])]
  omega

theorem writerBefore_succ (g : Graph ρ) (s : State) (skip : List NodeKey) (fuel : Nat)
    (k : NodeKey) : g.writerBefore s skip (fuel + 1) k = (g.stepBack s k >>= fun
      | none => return g.initial.key
      | some w => if w.key ∈ skip then g.writerBefore s skip fuel w.key else return w.key) := by
  rw [writerBefore, stepBack]
  cases g.find k with
  | error e => rfl
  | ok v => rfl

/-- With a bound above the number of nodes at lower positions, the way back ends as it would
without one. -/
theorem Ascending.writerBefore_goesBack {g : Graph ρ} (h : g.Ascending) (s : State)
    (skip : List NodeKey) (fuel : Nat) {k : NodeKey} (hpositive : 0 < fuel)
    (hfuel : forall v, g.find? k = some v -> g.below v.nodeId < fuel) :
    g.GoesBack s skip k (g.writerBefore s skip fuel k) := by
  induction fuel generalizing k with
  | zero => exact absurd hpositive (Nat.lt_irrefl 0)
  | succ fuel ih =>
      rw [writerBefore_succ]
      cases hstep : g.stepBack s k with
      | error e => exact .fault hstep
      | ok o =>
          rw [ok_bind]
          cases o with
          | none => exact .root hstep
          | some u =>
              dsimp only
              by_cases hskip : u.key ∈ skip
              · rw [if_pos hskip]
                rcases stepBack_some hstep with ⟨v, hv, hin, hu⟩
                have hlower := h v s u.key u (mem_of_find? hv) hin hu
                have hfewer := below_lt (mem_of_find? hu) hlower
                have hleft : g.below u.nodeId < fuel := by
                  have hv' := hfuel v hv
                  omega
                refine .pass hstep hskip (ih (by omega) ?_)
                intro w hw
                rw [hu] at hw
                cases hw
                exact hleft
              · rw [if_neg hskip]
                exact .stop hstep hskip

theorem Ascending.priorWriter_goesBack {g : Graph ρ} (h : g.Ascending) (k : NodeKey) (s : State)
    (skip : List NodeKey) : g.GoesBack s skip k (g.priorWriter k s skip) := by
  apply h.writerBefore_goesBack s skip
  · exact Nat.succ_pos _
  · intro v _
    exact Nat.lt_succ_of_le List.countP_le_length

end Graph

namespace Session

theorem Rested.threaded {bank : Bank ρ} {s0 s : Session ρ} (h0 : Rested bank s0)
    (h : Follows bank (fun s a => s.Allowed a ∧ Action.Edits a) s0 s) :
    s.graph.Threaded s0.graph.ownerOrInitial := by
  have hsince := h0.since_edited h
  have hreachable := h0.reachable.follow h fun _ _ may => may.left
  exact ⟨hsince.consistent, hsince.rooted, hreachable.direct⟩

/-- Where edges lead to higher positions, the way back from any node ends, and does so at a node
unless it comes upon a key that is stale.  In a session, from a pending node that touches the
state, it ends at the last pending writer before that is not skipped, or at the node that owned
the state when the session last rested. -/
theorem priorWriter_exact (bank : Bank ρ) :
    (forall (g : Graph ρ) (k : NodeKey) (t : State) (skip : List NodeKey), g.Ascending ->
      g.GoesBack t skip k (g.priorWriter k t skip) ∧
      (forall e, g.priorWriter k t skip = .error e -> exists j, e = .staleKey j) ∧
      (g.HasSources t -> k ∈ g.keys -> exists w, g.priorWriter k t skip = .ok w)) ∧
    (forall s0 s : Session ρ, Rested bank s0 ->
      Follows bank (fun s a => s.Allowed a ∧ Action.Edits a) s0 s ->
      forall before e after t skip, s.graph.entries = before ++ e :: after ->
        e.reads t = true ∨ e.writes t = true ->
        (forall k, k ∈ skip -> k ∈ s.graph.pendingKeys) ->
        exists w, s.graph.priorWriter e.key t skip = .ok w ∧
          NearestWriter s0.graph.ownerOrInitial t
            (before.filter fun x => decide (x.key ∉ skip)) w) := by
  constructor
  · intro g k t skip h
    have hback := h.priorWriter_goesBack k t skip
    exact ⟨hback, fun e he => hback.fault_stale he, fun hsources hk => hback.arrives hsources hk⟩
  · intro s0 s h0 h before e after t skip hsplit htouch hskip
    have hthreaded := h0.threaded h
    have hpending : e.key ∈ s.graph.pendingKeys := by
      rw [← Graph.map_key_entries, hsplit]
      simp
    rcases Graph.priorWriter_ok hthreaded.consistent.sound hthreaded.consistent.forward
        (Graph.pendingKeys_subset hpending) t skip with ⟨w, hrun, hchain⟩
    exact ⟨w, hrun, hthreaded.chain_nearest hskip hchain hsplit rfl htouch⟩

/-- From the reader of the first field, two of the three pending writers are passed by, or all of
them. -/
theorem priorWriter_exact_stacked :
    Sample.stacked.graph.Ascending ∧ Sample.stacked.graph.HasSources (Sample.cell 0) ∧
      (exists w, Sample.stacked.graph.priorWriter ⟨4⟩ (Sample.cell 0) [⟨1⟩, ⟨2⟩] = .ok w) ∧
      exists before e, Sample.stacked.graph.entries = before ++ [e] ∧
        Sample.stacked.graph.priorWriter e.key (Sample.cell 0) [⟨3⟩, ⟨4⟩] = .ok ⟨2⟩ ∧
        NearestWriter Sample.rested.graph.ownerOrInitial (Sample.cell 0)
          (before.filter fun x => decide (x.key ∉ [⟨3⟩, ⟨4⟩])) ⟨2⟩ ∧
        Sample.stacked.graph.priorWriter e.key (Sample.cell 0) [⟨2⟩, ⟨3⟩, ⟨4⟩] = .ok ⟨1⟩ ∧
        NearestWriter Sample.rested.graph.ownerOrInitial (Sample.cell 0)
          (before.filter fun x => decide (x.key ∉ [⟨2⟩, ⟨3⟩, ⟨4⟩])) ⟨1⟩ := by
  have hstacked : Follows Sample.bank (fun s a => s.Allowed a ∧ Action.Edits a)
      Sample.rested Sample.stacked :=
    .step (a := .insertTasks false [Sample.fill, Sample.fill, Sample.fill, Sample.copy]) .refl
      ⟨trivial, Or.inl trivial⟩ rfl
  have hconsistent := (Sample.rested_rested.threaded hstacked).consistent
  have hascending := hconsistent.ascending
  have hsources := hconsistent.sound.hasSources (Sample.cell 0)
  have hentries : Sample.stacked.graph.entries = Sample.stacked.graph.entries.take 3
      ++ [⟨⟨5⟩, (Sample.bank.describe Sample.copy).task⟩] := by rfl
  rcases priorWriter_exact Sample.bank with ⟨hends, hfinds⟩
  have harrives := (hends Sample.stacked.graph ⟨4⟩ (Sample.cell 0) [⟨1⟩, ⟨2⟩] hascending).right.right
    hsources (by decide +kernel)
  rcases hfinds _ _ Sample.rested_rested hstacked _ _ _ (Sample.cell 0) [⟨3⟩, ⟨4⟩] hentries
    (Or.inl (by decide)) (by decide +kernel) with ⟨w, hw, hnear⟩
  rcases hfinds _ _ Sample.rested_rested hstacked _ _ _ (Sample.cell 0) [⟨2⟩, ⟨3⟩, ⟨4⟩] hentries
    (Or.inl (by decide)) (by decide +kernel) with ⟨x, hx, hfar⟩
  have hw2 : Sample.stacked.graph.priorWriter ⟨5⟩ (Sample.cell 0) [⟨3⟩, ⟨4⟩] = .ok ⟨2⟩ := rfl
  have hx1 : Sample.stacked.graph.priorWriter ⟨5⟩ (Sample.cell 0) [⟨2⟩, ⟨3⟩, ⟨4⟩] = .ok ⟨1⟩ := rfl
  rw [hw2] at hw
  cases hw
  rw [hx1] at hx
  cases hx
  exact ⟨hascending, hsources, harrives, _, _, hentries, hw2, hnear, hx1, hfar⟩

end Session
end LaunchGraph
