import TracingHeap.Proofs.Scratch.Moves
import TracingHeap.Proofs.Mark.EdgeWork
import TracingHeap.Proofs.Mark.Run

namespace TracingHeap

/-- What no step of a sequence changes, the sequence does not. -/
theorem kept_in_turn {σ α β : Type} {f : σ → β} {step : σ → α → Except Fault σ} {l : List α}
    (hstep : ∀ {s s' : σ} {a : α}, step s a = .ok s' → f s' = f s) :
    ∀ {s s' : σ}, l.foldlM step s = .ok s' → f s' = f s := by
  induction l with
  | nil =>
    intro s s' hok
    cases hok
    rfl
  | cons a rest ih =>
    intro s s' hok
    rw [List.foldlM_cons] at hok
    obtain ⟨next, hfirst, hok⟩ := except_bind_ok hok
    exact (ih hok).trans (hstep hfirst)

namespace Tracer

variable {tr : Tracer} {h : Handle} {m m' : Marking}

section

/-- Whenever the expansion of a cluster comes back, it has given back what it borrowed. -/
def LentAll (expand : Handle → Marking → Except Fault Marking)
    (expandMoves : Handle → Marking → List Move) : Prop :=
  ∀ r m m', expand r m = .ok m' → Lent 0 0 (expandMoves r m) m.pool m'.pool

variable {expand : Handle → Marking → Except Fault Marking}
  {expandMoves : Handle → Marking → List Move}

theorem reachMember_lent (hexp : LentAll expand expandMoves)
    (hok : tr.reachMember expand h m = .ok m') :
    Lent 0 0 (tr.reachMemberMoves expandMoves h m) m.pool m'.pool := by
  unfold reachMember at hok
  unfold reachMemberMoves
  cases ho : m.table.get? h with
  | none =>
    simp only [ho] at hok
    cases hok
    exact .nil _
  | some o =>
    simp only [ho] at hok ⊢
    split at hok
    · rename_i hr
      cases hok
      rw [if_pos hr]
      exact .nil _
    · rename_i hr
      rw [if_neg hr]
      split at hok
      · rename_i hk
        rw [if_pos hk]
        cases hown : o.owner with
        | none =>
          simp only [hown] at hok
          cases hok
          exact .nil _
        | some owner =>
          simp only [hown] at hok ⊢
          cases hroot : (m.setFlag h .reachableInCluster).table.get? owner with
          | none =>
            simp only [hroot] at hok
            cases hok
          | some root =>
            simp only [hroot] at hok ⊢
            split at hok
            · rename_i hu
              rw [if_pos hu]
              exact hexp owner _ _ hok
            · rename_i hu
              cases hok
              rw [if_neg hu]
              exact .nil _
      · rename_i hk
        cases hok
        rw [if_neg hk]
        exact .nil _

theorem reachMutable_lent (hexp : LentAll expand expandMoves) {cluster : Handle}
    {found found' : List Handle × Marking}
    (hok : tr.reachMutable expand cluster found h = .ok found') :
    Lent 0 0 (tr.reachMutableMoves expandMoves found h) found.2.pool found'.2.pool := by
  obtain ⟨pending, m⟩ := found
  unfold reachMutable at hok
  unfold reachMutableMoves
  dsimp only at hok ⊢
  split at hok
  · rename_i hp
    cases hok
    rw [if_pos hp]
    exact .nil _
  · rename_i hp
    rw [if_neg hp]
    cases ho : m.table.get? h with
    | none =>
      simp only [ho] at hok
      cases hok
    | some o =>
      simp only [ho] at hok ⊢
      split at hok
      · rename_i hu
        rw [if_pos hu]
        split at hok
        · cases hok
          exact .nil _
        · cases hok
          exact .nil _
      · rename_i hu
        rw [if_neg hu]
        split at hok
        · rename_i hm
          rw [if_pos hm]
          obtain ⟨m', hreach, hok⟩ := except_bind_ok hok
          cases hok
          exact reachMember_lent hexp hreach
        · rename_i hm
          cases hok
          rw [if_neg hm]
          exact .nil _

end

theorem pool_of_reachCluster {cluster : Handle} {found found' : List Handle × Marking}
    (hok : tr.reachCluster cluster found h = .ok found') : found'.2.pool = found.2.pool := by
  obtain ⟨pending, m⟩ := found
  unfold reachCluster at hok
  dsimp only at hok
  split at hok
  · cases hok
  · cases hok
    split <;> rfl

/-- Going through the roots that a cluster references borrows nothing. -/
theorem pool_of_reachClusters {cluster : Handle} {l : List Handle}
    {found found' : List Handle × Marking} (hok : l.foldlM (tr.reachCluster cluster) found = .ok found') :
    found'.2.pool = found.2.pool :=
  kept_in_turn (f := fun found : List Handle × Marking => found.2.pool) pool_of_reachCluster hok

/-- Every level of an expansion gives back its list. The induction follows the calls. -/
theorem expandPending_lent (fuel : Nat) (pending : List Handle) (m m' : Marking)
    (hok : tr.expandPending fuel pending m = .ok m') :
    Lent 0 0 (tr.expandPendingMoves fuel pending m) m.pool m'.pool := by
  induction fuel, pending, m using expandPending.induct tr generalizing m' with
  | case1 fuel m =>
    rw [expandPending] at hok
    cases hok
    rw [expandPendingMoves]
    exact .nil _
  | case2 current pending m =>
    rw [expandPending] at hok
    cases hok
  | case3 fuel current pending m c hc ihOwner ihRest =>
    rw [expandPending, hc] at hok
    rw [expandPendingMoves, hc]
    obtain ⟨found, hmutables, hok⟩ := except_bind_ok hok
    obtain ⟨⟨pending', next⟩, hreferenced, hok⟩ := except_bind_ok hok
    have hexp : LentAll (fun owner m => do
        let m ← tr.expandPending fuel [owner] { m with pool := m.pool.acquire }
        return { m with pool := m.pool.release })
        (fun owner m =>
          .borrow :: tr.expandPendingMoves fuel [owner] { m with pool := m.pool.acquire }
            ++ doneAfter (tr.expandPending fuel [owner] { m with pool := m.pool.acquire })
              fun _ => [.giveBack]) := by
      intro r m m' hok
      obtain ⟨m₁, hpending, hok⟩ := except_bind_ok hok
      cases hok
      dsimp only
      rw [hpending, doneAfter_ok]
      exact (ihOwner r m m₁ hpending).around
    have hfirst := done_in_turn (R := fun _ (found found' : List Handle × Marking) moves =>
      Lent 0 0 moves found.2.pool found'.2.pool) (fun _ => .nil _)
      (fun _ _ _ _ _ _ _ hstep hmoves hothers =>
        hmoves ▸ (reachMutable_lent hexp hstep).append hothers) hmutables
    have hlater := ihRest pending' next m' hok
    rw [pool_of_reachClusters hreferenced] at hlater
    have hfound := (congrArg (· >>= fun found => c.referenced.foldlM (tr.reachCluster current) found)
      hmutables).trans hreferenced
    dsimp only at hfound ⊢
    rw [hfound, doneAfter_ok]
    exact hfirst.append hlater
  | case4 fuel current pending m hnone =>
    rw [expandPending, Option.eq_none_iff_forall_ne_some.mpr hnone] at hok
    cases hok

theorem expand_lent : LentAll tr.expand tr.expandMoves := by
  intro r m m' hok
  unfold expand at hok
  unfold expandMoves
  obtain ⟨next, hpending, hok⟩ := except_bind_ok hok
  cases hok
  dsimp only
  rw [hpending, doneAfter_ok]
  exact (expandPending_lent _ [r] _ next hpending).around

/-- To follow a strong reference is to expand a cluster, to flag a member, or neither. The flag that is
cleared last is no matter to what is told. -/
theorem followStrong_cases {target : Object} (hok : tr.followStrong target m = .ok m') :
    (∃ m₁, tr.expand target.handle (m.clearFlag target.handle .unreachable) = .ok m₁ ∧
        m'.pool = m₁.pool ∧
        tr.followStrongDeeds target m =
          tr.expandDeeds target.handle (m.clearFlag target.handle .unreachable) ∧
        tr.followStrongMoves target m =
          tr.expandMoves target.handle (m.clearFlag target.handle .unreachable)) ∨
      (∃ m₁, tr.reachMember tr.expand target.handle m = .ok m₁ ∧ m'.pool = m₁.pool ∧
        tr.followStrongDeeds target m = tr.reachMemberDeeds tr.expandDeeds target.handle m ∧
        tr.followStrongMoves target m = tr.reachMemberMoves tr.expandMoves target.handle m) ∨
      (m'.pool = m.pool ∧ tr.followStrongDeeds target m = [] ∧ tr.followStrongMoves target m = []) := by
  have tail : ∀ {m₁ : Marking},
      (if target.has .noStrongReference then m₁.clearFlag target.handle .noStrongReference else m₁)
          = m' → m'.pool = m₁.pool := by
    rintro m₁ rfl
    split <;> rfl
  unfold followStrong at hok
  unfold followStrongDeeds followStrongMoves
  dsimp only at hok ⊢
  split at hok
  · rename_i hu
    rw [if_pos hu, if_pos hu]
    split at hok
    · cases hok
    · rename_i hown
      rw [if_neg hown, if_neg hown]
      split at hok
      · rename_i hroot
        rw [if_pos hroot, if_pos hroot]
        obtain ⟨m₁, hexpand, hok⟩ := except_bind_ok hok
        exact .inl ⟨m₁, hexpand, tail (Except.ok.inj hok), rfl, rfl⟩
      · rename_i hroot
        rw [if_neg hroot, if_neg hroot]
        obtain ⟨m₁, hm, hok⟩ := except_bind_ok hok
        cases hm
        have hlast := tail (Except.ok.inj hok)
        exact .inr (.inr ⟨hlast, rfl, rfl⟩)
  · rename_i hu
    rw [if_neg hu, if_neg hu]
    split at hok
    · rename_i hm
      rw [if_pos hm, if_pos hm]
      obtain ⟨m₁, hreach, hok⟩ := except_bind_ok hok
      exact .inr (.inl ⟨m₁, hreach, tail (Except.ok.inj hok), rfl, rfl⟩)
    · rename_i hm
      rw [if_neg hm, if_neg hm]
      obtain ⟨m₁, hsame, hok⟩ := except_bind_ok hok
      cases hsame
      exact .inr (.inr ⟨tail (Except.ok.inj hok), rfl, rfl⟩)

/-- To look at a slot is to follow a strong reference, or to do nothing that is told. What becomes of the
slot in the end is no matter. -/
theorem visit_cases {o : Object} {v : Visit} (hok : tr.visit o m v = .ok m') :
    (∃ target m₁, tr.followStrong target m = .ok m₁ ∧ m'.pool = m₁.pool ∧
        tr.visitDeeds o m v = tr.followStrongDeeds target m ∧
        tr.visitMoves o m v = tr.followStrongMoves target m) ∨
      (m'.pool = m.pool ∧ tr.visitDeeds o m v = [] ∧ tr.visitMoves o m v = []) := by
  unfold visit at hok
  unfold visitDeeds visitMoves
  dsimp only at hok ⊢
  cases hslot : m.table.slotAt? ⟨o.handle, v.address⟩ with
  | none =>
    simp only [hslot] at hok
    cases hok
    exact .inr ⟨rfl, rfl, rfl⟩
  | some slot =>
    simp only [hslot] at hok
    obtain ⟨⟨fate, m₁⟩, hfollow, hok⟩ := except_bind_ok hok
    have hlast : m'.pool = m₁.pool := by
      cases fate <;> cases hok <;> rfl
    rw [hlast]
    unfold follow at hfollow
    cases slot with
    | none =>
      cases hfollow
      exact .inr ⟨rfl, rfl, rfl⟩
    | some g =>
      dsimp only at hfollow ⊢
      split at hfollow
      · rename_i hp
        cases hfollow
        rw [if_pos hp, if_pos hp]
        exact .inr ⟨rfl, rfl, rfl⟩
      · rename_i hp
        rw [if_neg hp, if_neg hp]
        cases hg : m.table.get? g with
        | none =>
          simp only [hg] at hfollow
          cases hfollow
        | some target =>
          simp only [hg] at hfollow ⊢
          split at hfollow
          · rename_i hk
            cases hfollow
            rw [if_pos hk, if_pos hk]
            exact .inr ⟨rfl, rfl, rfl⟩
          · rename_i hk
            rw [if_neg hk, if_neg hk]
            cases hs : v.strength with
            | weak =>
              simp only [hs] at hfollow
              cases hfollow
              exact .inr ⟨rfl, rfl, rfl⟩
            | strong =>
              simp only [hs] at hfollow ⊢
              obtain ⟨m₂, hstrong, hfollow⟩ := except_bind_ok hfollow
              cases hfollow
              exact .inl ⟨target, m₁, hstrong, rfl, rfl, rfl⟩

/-- To look at an object of a wave is to expand a cluster, to flag a member or to walk the references. -/
theorem process_cases (hok : tr.process m h = .ok m') :
    (tr.expand h m.countScanned = .ok m' ∧
        tr.processDeeds m h = tr.expandDeeds h m.countScanned ∧
        tr.processMoves m h = tr.expandMoves h m.countScanned) ∨
      (tr.reachMember tr.expand h m.countScanned = .ok m' ∧
        tr.processDeeds m h = tr.reachMemberDeeds tr.expandDeeds h m.countScanned ∧
        tr.processMoves m h = tr.reachMemberMoves tr.expandMoves h m.countScanned) ∨
      ∃ (o : Object) (visits : List Visit), visits.foldlM (tr.visit o) m.countScanned = .ok m' ∧
        tr.processDeeds m h =
          .walk h :: doneInTurn (tr.visit o) (tr.visitDeeds o) visits m.countScanned ∧
        tr.processMoves m h = doneInTurn (tr.visit o) (tr.visitMoves o) visits m.countScanned := by
  unfold process at hok
  unfold processDeeds processMoves
  cases ho : m.table.get? h with
  | none =>
    simp only [ho] at hok
    cases hok
  | some o =>
    simp only [ho] at hok ⊢
    split at hok
    · rename_i hroot
      rw [if_pos hroot, if_pos hroot]
      exact .inl ⟨hok, rfl, rfl⟩
    · rename_i hroot
      rw [if_neg hroot, if_neg hroot]
      split at hok
      · rename_i hown
        rw [if_pos hown, if_pos hown]
        exact .inr (.inl ⟨hok, rfl, rfl⟩)
      · rename_i hown
        rw [if_neg hown, if_neg hown]
        obtain ⟨walk, hwalk, hok⟩ := except_bind_ok hok
        unfold Walk.foldM at hok
        obtain ⟨m₁, hvisits, hok⟩ := except_bind_ok hok
        rw [hwalk, doneAfter_ok, doneAfter_ok]
        have hm : m' = m₁ := by
          split at hok
          · cases hok
          · cases hok
            rfl
        subst hm
        exact .inr (.inr ⟨o, walk.visits, hvisits, rfl, rfl⟩)

theorem followStrong_lent {target : Object} (hok : tr.followStrong target m = .ok m') :
    Lent 0 0 (tr.followStrongMoves target m) m.pool m'.pool := by
  rcases followStrong_cases hok with ⟨m₁, hexpand, hpool, -, hmoves⟩ |
    ⟨m₁, hreach, hpool, -, hmoves⟩ | ⟨hpool, -, hmoves⟩
  · rw [hmoves, hpool]
    exact expand_lent _ _ _ hexpand
  · rw [hmoves, hpool]
    exact reachMember_lent expand_lent hreach
  · rw [hmoves, hpool]
    exact .nil _

theorem visit_lent {o : Object} {v : Visit} (hok : tr.visit o m v = .ok m') :
    Lent 0 0 (tr.visitMoves o m v) m.pool m'.pool := by
  rcases visit_cases hok with ⟨target, m₁, hstrong, hpool, -, hmoves⟩ | ⟨hpool, -, hmoves⟩
  · rw [hmoves, hpool]
    exact followStrong_lent hstrong
  · rw [hmoves, hpool]
    exact .nil _

/-- Steps that each give back what they borrow do so together. -/
theorem lent_in_turn {α : Type} {step : Marking → α → Except Fault Marking}
    {moves : Marking → α → List Move} {l : List α}
    (hstep : ∀ {m m' : Marking} {a : α}, step m a = .ok m' → Lent 0 0 (moves m a) m.pool m'.pool)
    (hok : l.foldlM step m = .ok m') : Lent 0 0 (doneInTurn step moves l m) m.pool m'.pool := by
  refine done_in_turn (R := fun _ (m m' : Marking) moves => Lent 0 0 moves m.pool m'.pool)
    (fun _ => .nil _) (fun a _ m m₁ m' first others hfirst hmoves hothers => ?_) hok
  rw [hmoves]
  exact (hstep hfirst).append hothers

theorem process_lent (hok : tr.process m h = .ok m') :
    Lent 0 0 (tr.processMoves m h) m.pool m'.pool := by
  rcases process_cases hok with ⟨hexpand, -, hmoves⟩ | ⟨hreach, -, hmoves⟩ |
    ⟨o, visits, hvisits, -, hmoves⟩
  · rw [hmoves]
    exact expand_lent _ _ _ hexpand
  · rw [hmoves]
    exact reachMember_lent expand_lent hreach
  · rw [hmoves]
    exact lent_in_turn visit_lent hvisits

/-- A task ends with its list out: it holds what the task has claimed. -/
theorem runTask_lent {batch : List Handle} (hok : tr.runTask m batch = .ok m') :
    Lent 0 1 (tr.taskMoves m batch) m.pool m'.pool := by
  unfold runTask at hok
  exact (Lent.borrow m.pool).append ((lent_in_turn process_lent hok).beyond 1)

/-- Each task ends with its list out. The induction is on the tasks. -/
theorem runTasks_lent {work : List (TaskOutput × List Handle)} :
    ∀ {t t' : Table} {pool pool' : ScratchPool} {done : List TaskOutput},
      tr.runTasks work t pool = .ok (done, t', pool') →
        Lent 0 done.length (tr.tasksMoves work t pool) pool pool' := by
  induction work with
  | nil =>
    intro t t' pool pool' done hok
    cases hok
    exact .nil _
  | cons job others ih =>
    intro t t' pool pool' done hok
    obtain ⟨output, batch⟩ := job
    obtain ⟨m, hrun, hok⟩ := except_bind_ok hok
    obtain ⟨⟨rest, t₁, pool₁⟩, hrest, hok⟩ := except_bind_ok hok
    cases hok
    rw [tasksMoves, hrun, doneAfter_ok, List.length_cons, Nat.add_comm]
    exact (runTask_lent hrun).append ((ih hrest).beyond 1)

theorem serialWave_lent {wave : List Handle} {s : TraceState} {found : List Handle × TraceState}
    (hok : tr.serialWave wave s = .ok found) :
    Lent 0 1 (tr.serialWaveMoves wave s) s.pool found.2.pool := by
  obtain ⟨output, rest, m, houtputs, hrun, rfl⟩ := serialWave_ok hok
  unfold serialWaveMoves
  simp only [houtputs]
  exact runTask_lent hrun

/-- The lists of all the tasks are given back. -/
theorem giveBack_lent (done : List TaskOutput) : ∀ p : ScratchPool,
    Lent done.length 0 (List.replicate done.length .giveBack) p
      (done.foldl (fun p _ => p.release) p) := by
  induction done with
  | nil => exact .nil
  | cons output rest ih =>
    intro p
    have hfirst := (Lent.giveBack p).beyond rest.length
    exact hfirst.append (ih p.release)

/-- The lists of the tasks make way for one that holds what all of them have claimed. -/
theorem batchedWave_lent {workers least : Nat} {wave : List Handle} {s : TraceState}
    {found : List Handle × TraceState} (hok : tr.batchedWave workers least wave s = .ok found) :
    Lent 0 1 (tr.batchedWaveMoves workers least wave s) s.pool found.2.pool := by
  unfold batchedWave at hok
  unfold batchedWaveMoves
  dsimp only at hok ⊢
  split at hok
  · cases hok
  · rename_i hout
    rw [if_neg hout]
    obtain ⟨⟨done, t, pool⟩, hrun, hok⟩ := except_bind_ok hok
    cases hok
    rw [hrun, doneAfter_ok]
    have hborrow := (Lent.borrow pool).beyond done.length
    have hback := (giveBack_lent done pool.acquire).beyond 1
    rw [Nat.add_comm 1] at hback
    exact (runTasks_lent hrun).append (hborrow.append hback)

theorem wave_lent {plan : WavePlan} {wave : List Handle} {s : TraceState}
    {found : List Handle × TraceState} (hok : tr.wave plan wave s = .ok found) :
    Lent 0 1 (tr.waveMoves plan wave s) s.pool found.2.pool := by
  let counted : TraceState := { s with tally := { s.tally with waves := s.tally.waves + 1 } }
  unfold Tracer.wave at hok
  unfold waveMoves
  cases hw : plan.workers with
  | none =>
    simp only [hw] at hok ⊢
    exact serialWave_lent (s := counted) hok
  | some workers =>
    simp only [hw] at hok ⊢
    obtain ⟨enough, henough, hok⟩ := except_bind_ok hok
    rw [henough, doneAfter_ok]
    split at hok
    · rename_i hmany
      rw [if_pos hmany]
      exact batchedWave_lent (s := counted) hok
    · rename_i hfew
      rw [if_neg hfew]
      exact serialWave_lent (s := counted) hok

/-- The list of a wave is given back when the next wave is known. The induction follows the waves. -/
theorem waves_lent {plan : WavePlan} (fuel : Nat) {wave : List Handle} {s s' : TraceState}
    (hok : tr.waves plan fuel wave s = .ok s') :
    Lent 1 0 (tr.wavesMoves plan fuel wave s) s.pool s'.pool := by
  induction fuel, wave, s using waves.induct with
  | case1 fuel s =>
    rw [waves] at hok
    cases hok
    rw [wavesMoves]
    exact .giveBack _
  | case2 h rest s =>
    rw [waves] at hok
    cases hok
  | case3 fuel wave s hne ih =>
    rw [waves] at hok
    · obtain ⟨⟨next, s₁⟩, hwave, hok⟩ := except_bind_ok hok
      rw [wavesMoves, hwave, doneAfter_ok]
      · have hback := (Lent.giveBack s₁.pool).beyond 1
        exact ((wave_lent hwave).beyond 1).append (hback.append (ih next s₁ hok))
      · exact hne
    · exact hne

/-- A trace gives back the list of its frontier. -/
theorem trace_lent {plan : WavePlan} {frontier : List Handle} {t : Table} {pool : ScratchPool}
    {tally : Tally} {s' : TraceState} (hok : tr.trace plan frontier t pool tally = .ok s') :
    Lent 1 0 (tr.traceMoves plan frontier t pool tally) pool s'.pool :=
  waves_lent _ hok

end Tracer

section

variable {s : Schema} {plan : MarkPlan}

/-- The list of survivors is the frontier of the next round, or is given back. The induction is on the
bound of the rounds. -/
theorem markRounds_lent (fuel : Nat) : ∀ {frontier : List Handle} {r r' : MarkResult},
    markRounds s plan fuel frontier r = .ok r' →
      Lent 1 0 (markRoundsMoves s plan fuel frontier r) r.pool r'.pool := by
  induction fuel with
  | zero =>
    intro frontier r r' hok
    cases hok
  | succ fuel ih =>
    intro frontier r r' hok
    rw [markRounds_succ] at hok
    obtain ⟨⟨survivors, r₁⟩, hround, hok⟩ := except_bind_ok hok
    rw [markRoundsMoves, hround, doneAfter_ok]
    obtain ⟨traced, htrace, count, t, cs, -, rfl⟩ := markRound_ok hround
    dsimp only at hok ⊢
    rw [htrace, doneAfter_ok]
    have hround := (Tracer.trace_lent htrace).append (Lent.borrow traced.pool)
    split at hok
    · rename_i hempty
      cases hok
      rw [if_pos hempty]
      exact hround.append (Lent.giveBack _)
    · rename_i hsome
      rw [if_neg hsome]
      exact hround.append (ih hok)

/-- A mark that comes back has given back every list that it borrowed, and at no time one that it had
not. -/
theorem mark_lent {t : Table} {cs : Clusters} {pool : ScratchPool} {r : MarkResult}
    (hok : mark s plan t cs pool = .ok r) :
    Lent 0 0 (markMoves s plan t cs pool) pool r.pool := by
  obtain ⟨seeds, considered, t', hseed, hrounds, -⟩ := mark_ok hok
  unfold markMoves
  rw [hseed, doneAfter_ok]
  exact (Lent.borrow pool).append (markRounds_lent _ hrounds)

/-- A mark has as many lists more as it has made. -/
theorem mark_stock {t : Table} {cs : Clusters} {pool : ScratchPool} {r : MarkResult}
    (hok : mark s plan t cs pool = .ok r) :
    r.pool.stock - r.pool.allocated = pool.stock - pool.allocated := by
  rw [← (mark_lent hok).replayed]
  exact ScratchPool.stock_after _ _

end

end TracingHeap
