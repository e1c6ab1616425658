import TracingHeap.Proofs.Mark.Work
import TracingHeap.Proofs.Outcome

namespace TracingHeap

/-- A scratch list changes hands. The functions that list the moves of a mark follow it call by call, as those
that list its deeds do. -/
inductive Move where
  | borrow
  | giveBack
deriving DecidableEq

namespace Move

/-- How many lists are out after the moves if `out` are before them; none may be given back that is not
out. -/
def outAfter : (out : Nat) → List Move → Option Nat
  | out, [] => some out
  | out, .borrow :: rest => outAfter (out + 1) rest
  | 0, .giveBack :: _ => none
  | out + 1, .giveBack :: rest => outAfter out rest

theorem outAfter_append (v w : List Move) : ∀ out,
    outAfter out (v ++ w) = (outAfter out v).bind fun mid => outAfter mid w := by
  induction v with
  | nil => exact fun _ => rfl
  | cons a v ih =>
    intro out
    cases a with
    | borrow => exact ih _
    | giveBack => cases out with
      | zero => rfl
      | succ out => exact ih out

end Move

namespace ScratchPool

variable {p : ScratchPool} {v w : List Move}

def move (p : ScratchPool) : Move → ScratchPool
  | .borrow => p.acquire
  | .giveBack => p.release

def after (p : ScratchPool) (w : List Move) : ScratchPool := w.foldl move p

theorem after_append (p : ScratchPool) (v w : List Move) : p.after (v ++ w) = (p.after v).after w :=
  List.foldl_append

/-- The lists that there are: those in the pool and those borrowed. -/
def stock (p : ScratchPool) : Int := p.pooled + p.inUse

/-- A new list is one more than there were. -/
theorem stock_acquire (p : ScratchPool) :
    p.acquire.stock - p.acquire.allocated = p.stock - p.allocated := by
  unfold stock acquire
  dsimp only
  split <;> omega

/-- A list that is borrowed is there, or it is a new one. -/
theorem stock_acquire_eq (p : ScratchPool) : p.acquire.stock = max p.stock (p.inUse + 1) := by
  unfold stock acquire
  dsimp only
  omega

theorem stock_release (p : ScratchPool) : p.release.stock = p.stock := by
  unfold stock release
  dsimp only
  omega

theorem stock_after (w : List Move) : ∀ p : ScratchPool,
    (p.after w).stock - (p.after w).allocated = p.stock - p.allocated := by
  induction w with
  | nil => exact fun _ => rfl
  | cons a w ih =>
    intro p
    refine (ih (p.move a)).trans ?_
    cases a with
    | borrow => exact p.stock_acquire
    | giveBack =>
      rw [move, p.stock_release]
      rfl

/-- Borrowing and giving back drop no list. -/
theorem stock_le_after (w : List Move) : ∀ p : ScratchPool, p.stock ≤ (p.after w).stock := by
  induction w with
  | nil => exact fun _ => Int.le_refl _
  | cons a w ih =>
    intro p
    refine Int.le_trans ?_ (ih (p.move a))
    cases a with
    | borrow =>
      rw [move, stock_acquire_eq]
      exact Int.le_max_left _ _
    | giveBack => exact Int.le_of_eq p.stock_release.symm

/-- Borrowing and giving back are counted on both sides. -/
theorem balance_after (w : List Move) : ∀ p : ScratchPool,
    ((p.after w).acquired : Int) - (p.after w).released - (p.after w).inUse
      = p.acquired - p.released - p.inUse := by
  induction w with
  | nil => exact fun _ => rfl
  | cons a w ih =>
    intro p
    refine (ih (p.move a)).trans ?_
    cases a with
    | borrow => exact p.acquire_balance
    | giveBack => exact p.release_balance

/-- As many lists are out as the moves say. -/
theorem inUse_after (w : List Move) : ∀ (p : ScratchPool) (out n : Nat), p.inUse = out →
    Move.outAfter out w = some n → (p.after w).inUse = n := by
  induction w with
  | nil =>
    intro p out n hp hn
    cases hn
    exact hp
  | cons a w ih =>
    intro p out n hp hn
    cases a with
    | borrow =>
      refine ih p.acquire (out + 1) n ?_ hn
      simp [acquire, hp]
    | giveBack => cases out with
      | zero => cases hn
      | succ out =>
        refine ih p.release out n ?_ hn
        simp [release, hp]

/-- At no time is a list given back that is not out. -/
theorem inUse_nonneg {out n : Nat} (hp : p.inUse = out) (hn : Move.outAfter out w = some n)
    (hv : v <+: w) : 0 ≤ (p.after v).inUse := by
  obtain ⟨rest, rfl⟩ := hv
  rw [Move.outAfter_append] at hn
  obtain ⟨mid, hmid, -⟩ := Option.bind_eq_some_iff.mp hn
  rw [inUse_after v p out mid hp hmid]
  exact Int.natCast_nonneg mid

end ScratchPool

/-- The moves lead from one account to another. Beyond the lists that are out already, they start with `a`
lists that are out and end with `b`. -/
structure Lent (a b : Nat) (w : List Move) (p p' : ScratchPool) : Prop where
  replayed : p.after w = p'
  level : ∀ out, Move.outAfter (out + a) w = some (out + b)

namespace Lent

variable {a b c : Nat} {v w : List Move} {p q r : ScratchPool}

theorem nil (p : ScratchPool) : Lent 0 0 [] p p := ⟨rfl, fun _ => rfl⟩

theorem borrow (p : ScratchPool) : Lent 0 1 [.borrow] p p.acquire := ⟨rfl, fun _ => rfl⟩

theorem giveBack (p : ScratchPool) : Lent 1 0 [.giveBack] p p.release := ⟨rfl, fun _ => rfl⟩

theorem append (hv : Lent a b v p q) (hw : Lent b c w q r) : Lent a c (v ++ w) p r := by
  refine ⟨?_, fun out => ?_⟩
  · rw [ScratchPool.after_append, hv.replayed, hw.replayed]
  · rw [Move.outAfter_append, hv.level]
    exact hw.level out

/-- More lists may be out all the while. -/
theorem beyond (h : Lent a b w p q) (n : Nat) : Lent (n + a) (n + b) w p q := by
  refine ⟨h.replayed, fun out => ?_⟩
  rw [← Nat.add_assoc, ← Nat.add_assoc]
  exact h.level (out + n)

/-- A list is borrowed for the time of some moves. -/
theorem around (h : Lent 0 0 w p.acquire q) :
    Lent 0 0 (.borrow :: w ++ [.giveBack]) p q.release :=
  ((borrow p).append (h.beyond 1)).append (giveBack q)

end Lent

namespace Tracer

def reachMemberMoves (t : Tracer) (expandMoves : Handle → Marking → List Move) (h : Handle)
    (m : Marking) : List Move :=
  match m.table.get? h with
  | none => []
  | some o =>
    if o.has .reachableInCluster then []
    else
      let m := m.setFlag h .reachableInCluster
      if t.memberKeepsCluster then
        match o.owner with
        | none => []
        | some owner =>
          match m.table.get? owner with
          | none => []
          | some root => if root.isUnreachable then expandMoves owner (m.claim owner) else []
      else []

def reachMutableMoves (t : Tracer) (expandMoves : Handle → Marking → List Move)
    (found : List Handle × Marking) (h : Handle) : List Move :=
  let (_, m) := found
  if m.table.isPermanent h then []
  else match m.table.get? h with
    | none => []
    | some o =>
      if o.isUnreachable then []
      else if o.owner.isSome && !o.has .reachableInCluster then t.reachMemberMoves expandMoves h m
      else []

def expandPendingMoves (t : Tracer) : Nat → List Handle → Marking → List Move
  | _, [], _ => []
  | 0, _ :: _, _ => []
  | fuel + 1, current :: pending, m =>
    match t.clusters.get? current with
    | none => []
    | some c =>
      let expand := fun owner (m : Marking) => do
        let m ← t.expandPending fuel [owner] { m with pool := m.pool.acquire }
        return { m with pool := m.pool.release }
      let expandMoves := fun owner (m : Marking) =>
        .borrow :: t.expandPendingMoves fuel [owner] { m with pool := m.pool.acquire }
          ++ doneAfter (t.expandPending fuel [owner] { m with pool := m.pool.acquire })
            fun _ => [.giveBack]
      let found := c.mutables.foldlM (t.reachMutable expand current) (pending, m)
      doneInTurn (t.reachMutable expand current) (t.reachMutableMoves expandMoves) c.mutables
          (pending, m)
        ++ doneAfter (found >>= c.referenced.foldlM (t.reachCluster current))
          fun (pending, m) => t.expandPendingMoves fuel pending m

def expandMoves (t : Tracer) (root : Handle) (m : Marking) : List Move :=
  let fuel := m.table.capacity + 1
  .borrow :: t.expandPendingMoves fuel [root] { m with pool := m.pool.acquire }
    ++ doneAfter (t.expandPending fuel [root] { m with pool := m.pool.acquire }) fun _ => [.giveBack]

def followStrongMoves (t : Tracer) (target : Object) (m : Marking) : List Move :=
  let h := target.handle
  if target.isUnreachable then
    if target.owner.isSome then []
    else if target.has .clusterRoot then t.expandMoves h (m.clearFlag h .unreachable) else []
  else if target.owner.isSome && !target.has .reachableInCluster then
    t.reachMemberMoves t.expandMoves h m
  else []

def visitMoves (t : Tracer) (o : Object) (m : Marking) (v : Visit) : List Move :=
  match m.table.slotAt? ⟨o.handle, v.address⟩ with
  | some (some h) =>
    if m.table.isPermanent h then []
    else match m.table.get? h with
      | none => []
      | some target =>
        if target.has .pendingKill then []
        else match v.strength with
          | .weak => []
          | .strong => t.followStrongMoves target m
  | _ => []

def processMoves (t : Tracer) (m : Marking) (h : Handle) : List Move :=
  match m.table.get? h with
  | none => []
  | some o =>
    let m := m.countScanned
    if o.has .clusterRoot then t.expandMoves h m
    else if o.owner.isSome then t.reachMemberMoves t.expandMoves h m
    else doneAfter (orFault (t.schema.walk o)) fun walk =>
      doneInTurn (t.visit o) (t.visitMoves o) walk.visits m

/-- The moves of a task, which begins with borrowing a list for what it claims. -/
def taskMoves (t : Tracer) (m : Marking) (batch : List Handle) : List Move :=
  .borrow :: doneInTurn t.process t.processMoves batch
    { m with pool := m.pool.acquire, output := { m.output with reached := #[] } }

def tasksMoves (t : Tracer) : List (TaskOutput × List Handle) → Table → ScratchPool → List Move
  | [], _, _ => []
  | (output, batch) :: rest, table, pool =>
    t.taskMoves ⟨table, pool, output⟩ batch
      ++ doneAfter (t.runTask ⟨table, pool, output⟩ batch) fun m =>
        t.tasksMoves rest m.table m.pool

def serialWaveMoves (t : Tracer) (wave : List Handle) (s : TraceState) : List Move :=
  match s.outputs with
  | [] => []
  | output :: _ => t.taskMoves ⟨s.table, s.pool, output⟩ wave

/-- The moves of a wave cut into batches. When the tasks are done, a list is borrowed for what they have
claimed, and theirs are given back. -/
def batchedWaveMoves (t : Tracer) (workers least : Nat) (wave : List Handle) (s : TraceState) :
    List Move :=
  let batch := batchSize wave.length workers s.outputs.length least
  let tasks := taskCount wave.length batch
  if s.outputs.length < tasks then []
  else
    let jobs := (s.outputs.take tasks).zip (chunks batch wave)
    t.tasksMoves jobs s.table s.pool ++ doneAfter (t.runTasks jobs s.table s.pool) fun (done, _) =>
      .borrow :: List.replicate done.length .giveBack

def waveMoves (t : Tracer) (plan : WavePlan) (current : List Handle) (s : TraceState) : List Move :=
  let s := { s with tally := { s.tally with waves := s.tally.waves + 1 } }
  match plan.workers with
  | none => t.serialWaveMoves current s
  | some workers => doneAfter (mulSizes 2 plan.least) fun enough =>
    if enough ≤ current.length then t.batchedWaveMoves workers plan.least current s
    else t.serialWaveMoves current s

/-- The moves of wave after wave. The list of a wave is given back when the next one is known. -/
def wavesMoves (t : Tracer) (plan : WavePlan) : Nat → List Handle → TraceState → List Move
  | _, [], _ => [.giveBack]
  | 0, _ :: _, _ => []
  | fuel + 1, current, s =>
    t.waveMoves plan current s ++ doneAfter (t.wave plan current s) fun (next, s) =>
      .giveBack :: t.wavesMoves plan fuel next { s with pool := s.pool.release }

def traceMoves (t : Tracer) (plan : WavePlan) (frontier : List Handle) (table : Table)
    (pool : ScratchPool) (tally : Tally) : List Move :=
  t.wavesMoves plan (table.capacity + 1) frontier
    ⟨table, pool, List.replicate (plan.workers.getD 1) .empty, tally⟩

end Tracer

/-- The moves of the rounds of a mark. After each trace a list is borrowed for the survivors, which is given
back if there are none. -/
def markRoundsMoves (s : Schema) (plan : MarkPlan) : Nat → List Handle → MarkResult → List Move
  | 0, _, _ => []
  | fuel + 1, frontier, r =>
    let tracer := plan.tracer s r
    let tally : Tally := ⟨r.weak, r.scanned, r.waves⟩
    tracer.traceMoves plan.waves frontier r.table r.pool tally
      ++ doneAfter (tracer.trace plan.waves frontier r.table r.pool tally) (fun _ => [.borrow])
      ++ doneAfter (markRound s plan frontier r) fun (survivors, r) =>
        if survivors.isEmpty then [.giveBack] else markRoundsMoves s plan fuel survivors r

/-- The moves of a mark, which begins with borrowing a list for the seeds. -/
def markMoves (s : Schema) (plan : MarkPlan) (t : Table) (cs : Clusters) (pool : ScratchPool) :
    List Move :=
  .borrow :: doneAfter (seed plan.keep t) fun (seeds, considered, t) =>
    markRoundsMoves s plan (cs.size + 1) seeds
      ⟨t, cs, pool.acquire, #[], considered, 0, 0, 0, plan.waves.workers.isSome⟩

end TracingHeap
