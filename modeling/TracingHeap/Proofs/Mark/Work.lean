import TracingHeap.Marking.Analysis
import TracingHeap.Proofs.Outcome

namespace TracingHeap

/-- A unit of work of a mark. The functions that list the deeds follow those of the mark branch by branch. -/
inductive Deed where
  /-- The references of an object are walked. -/
  | walk (object : Handle)
  /-- What the bookkeeping of a cluster says it keeps alive is marked. -/
  | expand (root : Handle)
deriving DecidableEq

section

variable {σ α β : Type}

/-- What is done after a call, if it comes back. -/
def doneAfter (call : Except Fault σ) (deeds : σ → List β) : List β :=
  call.toOption.elim [] deeds

/-- What is done in a sequence of steps, each from the state that those before it lead to. -/
def doneInTurn (step : σ → α → Except Fault σ) (deeds : σ → α → List β) : List α → σ → List β
  | [], _ => []
  | a :: rest, s => deeds s a ++ doneAfter (step s a) (doneInTurn step deeds rest)

end

namespace Tracer

def reachMemberDeeds (t : Tracer) (expandDeeds : Handle → Marking → List Deed) (h : Handle)
    (m : Marking) : List Deed :=
  match m.table.get? h with
  | none => []
  | some o =>
    if o.has .reachableInCluster then []
    else
      let m := m.setFlag h .reachableInCluster
      if t.memberKeepsCluster then
        match o.owner with
        | none => []
        | some owner =>
          match m.table.get? owner with
          | none => []
          | some root => if root.isUnreachable then expandDeeds owner (m.claim owner) else []
      else []

def reachMutableDeeds (t : Tracer) (expandDeeds : Handle → Marking → List Deed)
    (found : List Handle × Marking) (h : Handle) : List Deed :=
  let (_, m) := found
  if m.table.isPermanent h then []
  else match m.table.get? h with
    | none => []
    | some o =>
      if o.isUnreachable then []
      else if o.owner.isSome && !o.has .reachableInCluster then t.reachMemberDeeds expandDeeds h m
      else []

def expandPendingDeeds (t : Tracer) : Nat → List Handle → Marking → List Deed
  | _, [], _ => []
  | 0, _ :: _, _ => []
  | fuel + 1, current :: pending, m =>
    match t.clusters.get? current with
    | none => []
    | some c =>
      let expand := fun owner (m : Marking) => do
        let m ← t.expandPending fuel [owner] { m with pool := m.pool.acquire }
        return { m with pool := m.pool.release }
      let expandDeeds := fun owner (m : Marking) =>
        t.expandPendingDeeds fuel [owner] { m with pool := m.pool.acquire }
      let found := c.mutables.foldlM (t.reachMutable expand current) (pending, m)
      .expand current :: doneInTurn (t.reachMutable expand current)
          (t.reachMutableDeeds expandDeeds) c.mutables (pending, m)
        ++ doneAfter (found >>= c.referenced.foldlM (t.reachCluster current))
          fun (pending, m) => t.expandPendingDeeds fuel pending m

def expandDeeds (t : Tracer) (root : Handle) (m : Marking) : List Deed :=
  t.expandPendingDeeds (m.table.capacity + 1) [root] { m with pool := m.pool.acquire }

def followStrongDeeds (t : Tracer) (target : Object) (m : Marking) : List Deed :=
  let h := target.handle
  if target.isUnreachable then
    if target.owner.isSome then []
    else if target.has .clusterRoot then t.expandDeeds h (m.clearFlag h .unreachable) else []
  else if target.owner.isSome && !target.has .reachableInCluster then
    t.reachMemberDeeds t.expandDeeds h m
  else []

def visitDeeds (t : Tracer) (o : Object) (m : Marking) (v : Visit) : List Deed :=
  match m.table.slotAt? ⟨o.handle, v.address⟩ with
  | some (some h) =>
    if m.table.isPermanent h then []
    else match m.table.get? h with
      | none => []
      | some target =>
        if target.has .pendingKill then []
        else match v.strength with
          | .weak => []
          | .strong => t.followStrongDeeds target m
  | _ => []

/-- What is done for one object of a wave. Only a standalone object is walked: a root has its cluster
expanded, and a member is flagged. -/
def processDeeds (t : Tracer) (m : Marking) (h : Handle) : List Deed :=
  match m.table.get? h with
  | none => []
  | some o =>
    let m := m.countScanned
    if o.has .clusterRoot then t.expandDeeds h m
    else if o.owner.isSome then t.reachMemberDeeds t.expandDeeds h m
    else doneAfter (orFault (t.schema.walk o)) fun walk =>
      .walk h :: doneInTurn (t.visit o) (t.visitDeeds o) walk.visits m

def taskDeeds (t : Tracer) (m : Marking) (batch : List Handle) : List Deed :=
  doneInTurn t.process t.processDeeds batch
    { m with pool := m.pool.acquire, output := { m.output with reached := #[] } }

def tasksDeeds (t : Tracer) : List (TaskOutput × List Handle) → Table → ScratchPool → List Deed
  | [], _, _ => []
  | (output, batch) :: rest, table, pool =>
    t.taskDeeds ⟨table, pool, output⟩ batch
      ++ doneAfter (t.runTask ⟨table, pool, output⟩ batch) fun m =>
        t.tasksDeeds rest m.table m.pool

def serialWaveDeeds (t : Tracer) (wave : List Handle) (s : TraceState) : List Deed :=
  match s.outputs with
  | [] => []
  | output :: _ => t.taskDeeds ⟨s.table, s.pool, output⟩ wave

def batchedWaveDeeds (t : Tracer) (workers least : Nat) (wave : List Handle) (s : TraceState) :
    List Deed :=
  let batch := batchSize wave.length workers s.outputs.length least
  let tasks := taskCount wave.length batch
  if s.outputs.length < tasks then []
  else t.tasksDeeds ((s.outputs.take tasks).zip (chunks batch wave)) s.table s.pool

def waveDeeds (t : Tracer) (plan : WavePlan) (current : List Handle) (s : TraceState) : List Deed :=
  let s := { s with tally := { s.tally with waves := s.tally.waves + 1 } }
  match plan.workers with
  | none => t.serialWaveDeeds current s
  | some workers => doneAfter (mulSizes 2 plan.least) fun enough =>
    if enough ≤ current.length then t.batchedWaveDeeds workers plan.least current s
    else t.serialWaveDeeds current s

def wavesDeeds (t : Tracer) (plan : WavePlan) : Nat → List Handle → TraceState → List Deed
  | _, [], _ => []
  | 0, _ :: _, _ => []
  | fuel + 1, current, s =>
    t.waveDeeds plan current s ++ doneAfter (t.wave plan current s) fun (next, s) =>
      t.wavesDeeds plan fuel next { s with pool := s.pool.release }

def traceDeeds (t : Tracer) (plan : WavePlan) (frontier : List Handle) (table : Table)
    (pool : ScratchPool) (tally : Tally) : List Deed :=
  t.wavesDeeds plan (table.capacity + 1) frontier
    ⟨table, pool, List.replicate (plan.workers.getD 1) .empty, tally⟩

end Tracer

def MarkPlan.tracer (plan : MarkPlan) (s : Schema) (r : MarkResult) : Tracer :=
  ⟨s, r.clusters, plan.memberKeepsCluster⟩

/-- One round: the frontier is traced, and the clusters that were outlived are dissolved. -/
def markRound (s : Schema) (plan : MarkPlan) (frontier : List Handle) (r : MarkResult) :
    Except Fault (List Handle × MarkResult) := do
  let traced ← (plan.tracer s r).trace plan.waves frontier r.table r.pool
    ⟨r.weak, r.scanned, r.waves⟩
  let (count, survivors, table, clusters) ← r.clusters.dissolveOutlived s traced.table
  return (survivors, { r with
    table := table
    clusters := clusters
    pool := traced.pool.acquire
    weak := traced.tally.weak
    scanned := traced.tally.scanned
    waves := traced.tally.waves
    dissolved := r.dissolved + count })

/-- The phases of a round that comes back. -/
theorem markRound_ok {s : Schema} {plan : MarkPlan} {frontier survivors : List Handle}
    {r r' : MarkResult} (hok : markRound s plan frontier r = .ok (survivors, r')) :
    ∃ traced, (plan.tracer s r).trace plan.waves frontier r.table r.pool
        ⟨r.weak, r.scanned, r.waves⟩ = .ok traced ∧
      ∃ count t cs, r.clusters.dissolveOutlived s traced.table = .ok (count, survivors, t, cs) ∧
        r' = { r with
          table := t
          clusters := cs
          pool := traced.pool.acquire
          weak := traced.tally.weak
          scanned := traced.tally.scanned
          waves := traced.tally.waves
          dissolved := r.dissolved + count } := by
  unfold markRound at hok
  obtain ⟨traced, htrace, hok⟩ := except_bind_ok hok
  obtain ⟨⟨count, found, t, cs⟩, hdissolve, hok⟩ := except_bind_ok hok
  cases hok
  exact ⟨traced, htrace, count, t, cs, hdissolve, rfl⟩

/-- The rounds are taken one after the other, until one leaves no survivor. -/
theorem markRounds_succ (s : Schema) (plan : MarkPlan) (fuel : Nat) (frontier : List Handle)
    (r : MarkResult) : markRounds s plan (fuel + 1) frontier r =
      markRound s plan frontier r >>= fun (survivors, r) =>
        if survivors.isEmpty then .ok { r with pool := r.pool.release }
        else markRounds s plan fuel survivors r := by
  rw [markRounds, markRound, bind_assoc]
  refine bind_congr fun traced => ?_
  rw [bind_assoc]
  rfl

def markRoundsDeeds (s : Schema) (plan : MarkPlan) : Nat → List Handle → MarkResult →
    List (List Deed)
  | 0, _, _ => []
  | fuel + 1, frontier, r =>
    (plan.tracer s r).traceDeeds plan.waves frontier r.table r.pool ⟨r.weak, r.scanned, r.waves⟩
      :: doneAfter (markRound s plan frontier r) fun (survivors, r) =>
        if survivors.isEmpty then [] else markRoundsDeeds s plan fuel survivors r

/-- What a mark does, a list for each round of tracing and dissolving. -/
def markDeeds (s : Schema) (plan : MarkPlan) (t : Table) (cs : Clusters) (pool : ScratchPool) :
    List (List Deed) :=
  doneAfter (seed plan.keep t) fun (seeds, considered, t) =>
    markRoundsDeeds s plan (cs.size + 1) seeds
      ⟨t, cs, pool.acquire, #[], considered, 0, 0, 0, plan.waves.workers.isSome⟩

end TracingHeap
