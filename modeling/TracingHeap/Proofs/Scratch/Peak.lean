import TracingHeap.Proofs.Scratch.Balance

namespace TracingHeap

namespace ScratchPool

variable {n k : Nat} {p q r : ScratchPool}

structure Stretched (n : Nat) (p q : ScratchPool) : Prop where
  inUse : q.inUse = p.inUse
  stock : q.stock = max p.stock (p.inUse + n)

theorem inUse_le_stock (p : ScratchPool) : p.inUse ≤ p.stock := by
  unfold stock
  omega

namespace Stretched

theorem refl (p : ScratchPool) : Stretched 0 p p := by
  refine ⟨rfl, ?_⟩
  have := p.inUse_le_stock
  omega

theorem trans (a : Stretched n p q) (b : Stretched k q r) : Stretched (max n k) p r := by
  refine ⟨b.inUse.trans a.inUse, ?_⟩
  rw [b.stock, a.stock, a.inUse]
  omega

/-- A list is out all the while. -/
theorem around (a : Stretched n p.acquire q) : Stretched (n + 1) p q.release := by
  obtain ⟨hout, hstock⟩ := a
  have hacquired : p.acquire.inUse = p.inUse + 1 := rfl
  refine ⟨?_, ?_⟩
  · change q.inUse - 1 = p.inUse
    omega
  · rw [stock_release, hstock, stock_acquire_eq]
    omega

/-- A list is exchanged for another one. -/
theorem exchanged (a : Stretched n p q) : Stretched n p q.release.acquire := by
  have hreleased : q.release.inUse = q.inUse - 1 := rfl
  refine ⟨?_, ?_⟩
  · change q.inUse - 1 + 1 = p.inUse
    rw [a.inUse]
    omega
  · have := q.inUse_le_stock
    rw [stock_acquire_eq, stock_release, hreleased, ← a.stock]
    omega

end Stretched

end ScratchPool

open ScratchPool (Stretched)

namespace Deed

def isExpand : Deed → Bool
  | .walk _ => false
  | .expand _ => true

/-- How many lists the deeds have out at once, where members do not keep their clusters. -/
def depth (deeds : List Deed) : Nat := (deeds.any isExpand).toNat

theorem depth_append (v w : List Deed) : depth (v ++ w) = max (depth v) (depth w) := by
  unfold depth
  rw [List.any_append]
  cases v.any isExpand <;> cases w.any isExpand <;> rfl

/-- Deeds among which are the expansions of others have as many lists out. -/
theorem depth_le {v w : List Deed} (h : ∀ r, .expand r ∈ v → .expand r ∈ w) : depth v ≤ depth w := by
  cases hv : v.any isExpand with
  | false => simp [depth, hv]
  | true =>
    obtain ⟨deed, hm, hdeed⟩ := List.any_eq_true.mp hv
    cases deed with
    | walk g => cases hdeed
    | expand r =>
      have hw : w.any isExpand = true := List.any_eq_true.mpr ⟨.expand r, h r hm, rfl⟩
      simp [depth, hw, Bool.toNat_le]

end Deed

open Deed (depth)

namespace Tracer

variable {tr : Tracer} {h : Handle} {m m' : Marking} (hnot : tr.memberKeepsCluster = false)
include hnot

section

variable {expand : Handle → Marking → Except Fault Marking}
  {expandDeeds : Handle → Marking → List Deed}

theorem reachMember_pool (hok : tr.reachMember expand h m = .ok m') : m'.pool = m.pool := by
  unfold reachMember at hok
  rw [hnot] at hok
  cases ho : m.table.get? h with
  | none =>
    simp only [ho] at hok
    cases hok
    rfl
  | some o =>
    simp only [ho, Bool.false_eq_true, if_false] at hok
    split at hok <;> cases hok <;> rfl

theorem reachMemberDeeds_nil : tr.reachMemberDeeds expandDeeds h m = [] := by
  unfold reachMemberDeeds
  rw [hnot]
  cases m.table.get? h with
  | none => rfl
  | some o =>
    simp only [Bool.false_eq_true, if_false]
    split <;> rfl

theorem reachMutable_pool {cluster : Handle} {found found' : List Handle × Marking}
    (hok : tr.reachMutable expand cluster found h = .ok found') : found'.2.pool = found.2.pool := by
  obtain ⟨pending, m⟩ := found
  unfold reachMutable at hok
  dsimp only at hok
  split at hok
  · cases hok
    rfl
  · cases ho : m.table.get? h with
    | none =>
      simp only [ho] at hok
      cases hok
    | some o =>
      simp only [ho] at hok
      split at hok
      · split at hok <;> cases hok <;> rfl
      · split at hok
        · obtain ⟨m', hreach, hok⟩ := except_bind_ok hok
          cases hok
          exact reachMember_pool hnot hreach
        · cases hok
          rfl

end

/-- The clusters that wait are expanded with one list for all of them. The induction follows the
calls. -/
theorem expandPending_pool (fuel : Nat) (pending : List Handle) (m m' : Marking)
    (hok : tr.expandPending fuel pending m = .ok m') : m'.pool = m.pool := by
  induction fuel, pending, m using expandPending.induct tr generalizing m' with
  | case1 fuel m =>
    rw [expandPending] at hok
    cases hok
    rfl
  | case2 current pending m =>
    rw [expandPending] at hok
    cases hok
  | case3 fuel current pending m c hc ihOwner ihRest =>
    rw [expandPending, hc] at hok
    obtain ⟨found, hmutables, hok⟩ := except_bind_ok hok
    obtain ⟨⟨pending', next⟩, hreferenced, hok⟩ := except_bind_ok hok
    have hfirst := kept_in_turn (f := fun found : List Handle × Marking => found.2.pool)
      (reachMutable_pool hnot) hmutables
    exact (ihRest pending' next m' hok).trans ((pool_of_reachClusters hreferenced).trans hfirst)
  | case4 fuel current pending m hnone =>
    rw [expandPending, Option.eq_none_iff_forall_ne_some.mpr hnone] at hok
    cases hok

/-- An expansion has one list out. -/
theorem expand_stretched (hok : tr.expand h m = .ok m') :
    Stretched (depth (tr.expandDeeds h m)) m.pool m'.pool := by
  unfold expand at hok
  obtain ⟨next, hpending, hok⟩ := except_bind_ok hok
  cases hok
  have hdeeds : depth (tr.expandDeeds h m) = 1 := by
    unfold expandDeeds
    rw [expandPending] at hpending
    rw [expandPendingDeeds]
    cases hc : tr.clusters.get? h with
    | none =>
      rw [hc] at hpending
      cases hpending
    | some c => rfl
  have hpool := expandPending_pool hnot _ _ _ _ hpending
  rw [hdeeds]
  refine Stretched.around (n := 0) ?_
  dsimp only at hpool
  rw [hpool]
  exact .refl _

theorem followStrong_stretched {target : Object} (hok : tr.followStrong target m = .ok m') :
    Stretched (depth (tr.followStrongDeeds target m)) m.pool m'.pool := by
  rcases followStrong_cases hok with ⟨m₁, hexpand, hpool, hdeeds, -⟩ |
    ⟨m₁, hreach, hpool, hdeeds, -⟩ | ⟨hpool, hdeeds, -⟩
  · rw [hdeeds, hpool]
    exact expand_stretched hnot hexpand
  · rw [hdeeds, hpool, reachMemberDeeds_nil hnot, reachMember_pool hnot hreach]
    exact .refl _
  · rw [hdeeds, hpool]
    exact .refl _

theorem visit_stretched {o : Object} {v : Visit} (hok : tr.visit o m v = .ok m') :
    Stretched (depth (tr.visitDeeds o m v)) m.pool m'.pool := by
  rcases visit_cases hok with ⟨target, m₁, hstrong, hpool, hdeeds, -⟩ | ⟨hpool, hdeeds, -⟩
  · rw [hdeeds, hpool]
    exact followStrong_stretched hnot hstrong
  · rw [hdeeds, hpool]
    exact .refl _

omit hnot in
/-- What each step of a sequence has out at most, the sequence has. -/
theorem stretched_in_turn {α : Type} {step : Marking → α → Except Fault Marking}
    {deeds : Marking → α → List Deed} {l : List α}
    (hstep : ∀ {m m' : Marking} {a : α}, step m a = .ok m' → Stretched (depth (deeds m a)) m.pool m'.pool)
    (hok : l.foldlM step m = .ok m') :
    Stretched (depth (doneInTurn step deeds l m)) m.pool m'.pool := by
  refine done_in_turn (R := fun _ (m m' : Marking) deeds => Stretched (depth deeds) m.pool m'.pool)
    (fun _ => .refl _) (fun a _ m m₁ m' first others hfirst hdeeds hothers => ?_) hok
  rw [Deed.depth_append, hdeeds]
  exact (hstep hfirst).trans hothers

theorem process_stretched (hok : tr.process m h = .ok m') :
    Stretched (depth (tr.processDeeds m h)) m.pool m'.pool := by
  rcases process_cases hok with ⟨hexpand, hdeeds, -⟩ | ⟨hreach, hdeeds, -⟩ |
    ⟨o, visits, hvisits, hdeeds, -⟩
  · rw [hdeeds]
    exact expand_stretched hnot hexpand
  · rw [hdeeds, reachMemberDeeds_nil hnot, reachMember_pool hnot hreach]
    exact .refl _
  · rw [hdeeds]
    exact stretched_in_turn (visit_stretched hnot) hvisits

/-- A wave taken by one task holds a list for what is claimed. -/
theorem serialWave_stretched {wave : List Handle} {s : TraceState} {found : List Handle × TraceState}
    (hok : tr.serialWave wave s = .ok found) :
    Stretched (depth (tr.serialWaveDeeds wave s)) s.pool.acquire found.2.pool := by
  obtain ⟨output, rest, m, houtputs, hrun, rfl⟩ := serialWave_ok hok
  unfold serialWaveDeeds
  simp only [houtputs]
  exact stretched_in_turn (process_stretched hnot) hrun

omit hnot in
/-- How many lists a trace has out at once, beyond that of its frontier. -/
def height (frontier : List Handle) (deeds : List Deed) : Nat :=
  if frontier = [] then 0 else 1 + depth deeds

omit hnot in
theorem height_le {frontier : List Handle} {v w : List Deed}
    (h : ∀ r, .expand r ∈ v → .expand r ∈ w) : height frontier v ≤ height frontier w := by
  have := Deed.depth_le h
  unfold height
  split <;> omega

/-- Wave after wave the same lists do. The induction follows the waves. -/
theorem waves_stretched {plan : WavePlan} (hplan : plan.workers = none) (fuel : Nat)
    {wave : List Handle} {s s' : TraceState} (hok : tr.waves plan fuel wave s = .ok s') :
    ∃ q : ScratchPool, s'.pool = q.release ∧
      Stretched (height wave (tr.wavesDeeds plan fuel wave s)) s.pool q := by
  induction fuel, wave, s using waves.induct with
  | case1 fuel s =>
    rw [waves] at hok
    cases hok
    exact ⟨s.pool, rfl, .refl _⟩
  | case2 h rest s =>
    rw [waves] at hok
    cases hok
  | case3 fuel wave s hne ih =>
    rw [waves] at hok
    · obtain ⟨⟨next, s₁⟩, hwave, hok⟩ := except_bind_ok hok
      obtain ⟨q, hq, hothers⟩ := ih next s₁ hok
      rw [wavesDeeds, hwave, doneAfter_ok]
      · refine ⟨q, hq, ?_⟩
        have hfirst : Stretched (depth (tr.waveDeeds plan wave s)) s.pool.acquire s₁.pool := by
          unfold Tracer.wave at hwave
          unfold waveDeeds
          rw [hplan] at hwave ⊢
          exact serialWave_stretched hnot hwave
        have hboth := hfirst.around.trans hothers
        have hsame : height wave (tr.waveDeeds plan wave s ++
            tr.wavesDeeds plan fuel next { s₁ with pool := s₁.pool.release }) =
            max (depth (tr.waveDeeds plan wave s) + 1) (height next
              (tr.wavesDeeds plan fuel next { s₁ with pool := s₁.pool.release })) := by
          unfold height
          rw [if_neg hne, Deed.depth_append]
          cases next with
          | nil =>
            rw [if_pos rfl, wavesDeeds]
            change 1 + max _ 0 = _
            omega
          | cons g rest =>
            rw [if_neg (List.cons_ne_nil _ _)]
            omega
        rw [hsame]
        exact hboth
      · exact hne
    · exact hne

theorem trace_stretched {plan : WavePlan} (hplan : plan.workers = none) {frontier : List Handle}
    {t : Table} {pool : ScratchPool} {tally : Tally} {s' : TraceState}
    (hok : tr.trace plan frontier t pool tally = .ok s') : ∃ q : ScratchPool, s'.pool = q.release ∧
      Stretched (height frontier (tr.traceDeeds plan frontier t pool tally)) pool q :=
  waves_stretched hnot hplan _ hok

end Tracer

section

variable {s : Schema} {plan : MarkPlan} (hnot : plan.memberKeepsCluster = false)
  (hplan : plan.waves.workers = none)
include hnot hplan

/-- A mark has as many lists out as one trace of all its rounds would have. The induction is on the bound
of the rounds. -/
theorem markRounds_stretched (fuel : Nat) : ∀ {frontier : List Handle} {r r' : MarkResult},
    markRounds s plan fuel frontier r = .ok r' →
      ∃ (n : Nat) (q : ScratchPool), r'.pool = q.release ∧ Stretched n r.pool q ∧
        Tracer.height frontier (markRoundsDeeds s plan fuel frontier r).flatten ≤ n := by
  induction fuel with
  | zero =>
    intro frontier r r' hok
    cases hok
  | succ fuel ih =>
    intro frontier r r' hok
    rw [markRounds_succ] at hok
    obtain ⟨⟨survivors, r₁⟩, hround, hok⟩ := except_bind_ok hok
    rw [markRoundsDeeds, hround, doneAfter_ok, List.flatten_cons]
    obtain ⟨traced, htrace, count, t, cs, -, rfl⟩ := markRound_ok hround
    dsimp only at hok ⊢
    obtain ⟨q, hq, hfirst⟩ := Tracer.trace_stretched (by exact hnot) hplan htrace
    have hround := hfirst.exchanged
    rw [← hq] at hround
    split at hok
    · rename_i hempty
      cases hok
      rw [if_pos hempty, List.flatten_nil, List.append_nil]
      exact ⟨_, _, rfl, hround, Nat.le_refl _⟩
    · rename_i hsome
      rw [if_neg hsome]
      obtain ⟨n, q', hq', hothers, hle⟩ := ih hok
      refine ⟨_, q', hq', hround.trans hothers, ?_⟩
      rw [Tracer.height, if_neg fun he => hsome (List.isEmpty_iff.mpr he)] at hle
      unfold Tracer.height
      rw [Deed.depth_append]
      split <;> omega

/-- A mark has one list out beyond those of its rounds. -/
theorem mark_stretched {t t₀ : Table} {cs : Clusters} {pool : ScratchPool} {r : MarkResult}
    {seeds : List Handle} {considered : Nat}
    (hok : mark s plan t cs pool = .ok r)
    (hseed : seed plan.keep t = .ok (seeds, considered, t₀)) : ∃ n, Stretched (n + 1) pool r.pool ∧
      Tracer.height seeds (markDeeds s plan t cs pool).flatten ≤ n := by
  obtain ⟨_, _, _, hfound, hrounds, -⟩ := mark_ok hok
  unfold markDeeds
  rw [hseed] at hfound ⊢
  cases hfound
  obtain ⟨n, q, hq, hstretched, hle⟩ := markRounds_stretched hnot hplan _ hrounds
  refine ⟨n, ?_, hle⟩
  rw [hq]
  exact hstretched.around

end

end TracingHeap
