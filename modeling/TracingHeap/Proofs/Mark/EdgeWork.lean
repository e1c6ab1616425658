import TracingHeap.Proofs.Mark.Work
import TracingHeap.Proofs.Outcome
import TracingHeap.Proofs.Table.Basic

namespace TracingHeap

theorem count_queued (g h : Handle) (l : List Handle) :
    (h :: l).count g = [h].count g + l.count g := by
  rw [← List.count_append, List.singleton_append]

namespace Table

/-- What decides how a mark treats an object: the cluster it is a member of, and whether it is the root
of one. -/
def kind (t : Table) (h : Handle) : Option (Option Handle × Bool) :=
  (t.get? h).map fun o => (o.owner, o.has .clusterRoot)

def Standalone (t : Table) (h : Handle) : Prop :=
  ∃ o, t.get? h = some o ∧ o.owner = none ∧ o.has .clusterRoot = false

def asleep (t : Table) (h : Handle) : Nat := (t.isUnreachable h).toNat

variable {t : Table} {g h : Handle} {o : Object}

theorem standalone_iff : t.Standalone h ↔ t.kind h = some (none, false) := by
  simp [Standalone, kind]

structure Akin (t t' : Table) : Prop where
  kind : t'.kind = t.kind
  tidy : t.Tidy → t'.Tidy

namespace Akin

variable {t' t'' : Table}

theorem refl (t : Table) : t.Akin t := ⟨rfl, id⟩

theorem trans (a : t.Akin t') (b : t'.Akin t'') : t.Akin t'' :=
  ⟨b.kind.trans a.kind, b.tidy ∘ a.tidy⟩

theorem modify {f : Object → Object} (t : Table) (h : Handle) (hf : ∀ o, (f o).handle = o.handle ∧
    (f o).owner = o.owner ∧ (f o).has .clusterRoot = o.has .clusterRoot) : t.Akin (t.modify h f) := by
  refine ⟨funext fun g => ?_, fun ht => ht.modify f fun o => (hf o).1⟩
  unfold Table.kind
  rw [get?_modify]
  split
  · cases t.get? g with
    | none => rfl
    | some o => simp [hf o]
  · rfl

theorem setFlag {f : Flag} (hf : f ≠ .clusterRoot) (t : Table) (h : Handle) :
    t.Akin (t.setFlag h f) :=
  modify t h fun o => ⟨rfl, rfl, by simp [hf]⟩

theorem clearFlag {f : Flag} (hf : f ≠ .clusterRoot) (t : Table) (h : Handle) :
    t.Akin (t.clearFlag h f) :=
  modify t h fun o => ⟨rfl, rfl, by simp [hf]⟩

theorem clearSite (t : Table) (s : Site) : t.Akin (t.clearSite s) :=
  modify t s.object fun _ => ⟨rfl, rfl, rfl⟩

theorem claim (m : Marking) (h : Handle) : m.table.Akin (m.claim h).table :=
  (clearFlag (by decide) m.table h).trans (clearFlag (by decide) _ h)

end Akin

theorem asleep_eq (t : Table) (h : Handle) :
    t.asleep h = ((t.get? h).any (·.isUnreachable)).toNat := by
  unfold asleep isUnreachable has
  cases t.get? h <;> rfl

theorem asleep_modify {f : Object → Object} (t : Table) (h : Handle)
    (hf : ∀ o, (f o).isUnreachable = o.isUnreachable) : (t.modify h f).asleep g = t.asleep g := by
  rw [asleep_eq, asleep_eq, get?_modify]
  split
  · cases t.get? g with
    | none => rfl
    | some o => simp [hf o]
  · rfl

/-- An object that is claimed waits no longer. -/
theorem asleep_clear (ho : t.get? h = some o) (hu : o.isUnreachable = true) :
    [h].count g + (t.clearFlag h .unreachable).asleep g = t.asleep g := by
  rw [asleep_eq, asleep_eq, clearFlag, get?_modify]
  by_cases hg : g = h
  · subst hg
    have hflag : o.has .unreachable = true := hu
    simp [ho, hflag, Object.isUnreachable]
  · simp [hg, Ne.symm hg]

end Table

section

variable {σ α β : Type}

@[simp] theorem doneAfter_ok (s : σ) (deeds : σ → List β) :
    doneAfter (Except.ok s : Except Fault σ) deeds = deeds s := rfl

/-- What every step of a sequence makes of its deeds, the whole sequence makes of all of them. -/
theorem done_in_turn {step : σ → α → Except Fault σ} {deeds : σ → α → List β}
    {R : List α → σ → σ → List β → Prop} (hrefl : ∀ s, R [] s s [])
    (hcons : ∀ a rest s s' s'' first others, step s a = .ok s' → first = deeds s a →
      R rest s' s'' others → R (a :: rest) s s'' (first ++ others)) :
    ∀ {l : List α} {s s' : σ}, l.foldlM step s = .ok s' →
      R l s s' (doneInTurn step deeds l s) := by
  intro l
  induction l with
  | nil =>
    intro s s' hok
    cases hok
    exact hrefl s
  | cons a rest ih =>
    intro s s' hok
    rw [List.foldlM_cons] at hok
    obtain ⟨next, hstep, hok⟩ := except_bind_ok hok
    rw [doneInTurn, hstep]
    exact hcons a rest s next s' _ _ hstep rfl (ih hok)

end

/-- What some deeds come to for one object: `before` deeds waited for it, and `after` still do. A member
of a cluster may be queued for nothing. Only standalone objects are walked, and only registered clusters
expanded. -/
structure Tracer.Dealt (tr : Tracer) (g : Handle) (t t' : Table) (before after : Nat)
    (deeds : List Deed) : Prop where
  akin : t.Akin t'
  balance : (∀ r, t.kind g ≠ some (some r, false)) →
    deeds.count (.walk g) + deeds.count (.expand g) + after = before
  walked : .walk g ∈ deeds → t.Standalone g
  expanded : .expand g ∈ deeds → (tr.clusters.get? g).isSome = true

namespace Tracer

variable {tr : Tracer} {g h : Handle} {t t' t'' : Table} {before between after k : Nat}
  {deeds deeds' : List Deed}

namespace Dealt

/-- A step that does nothing for the object. -/
theorem idle (hakin : t.Akin t') (hsame : after = before) :
    tr.Dealt g t t' before after [] :=
  ⟨hakin, fun _ => by simp [hsame], fun h => absurd h List.not_mem_nil,
    fun h => absurd h List.not_mem_nil⟩

theorem trans (a : tr.Dealt g t t' before between deeds)
    (b : tr.Dealt g t' t'' between after deeds') :
    tr.Dealt g t t'' before after (deeds ++ deeds') := by
  refine ⟨a.akin.trans b.akin, fun hg => ?_, fun hm => ?_, fun hm => ?_⟩
  · have hfirst := a.balance hg
    have hlater := b.balance (a.akin.kind ▸ hg)
    rw [List.count_append, List.count_append]
    omega
  · rcases List.mem_append.mp hm with hm | hm
    · exact a.walked hm
    · have hlater := b.walked hm
      rwa [Table.standalone_iff, a.akin.kind, ← Table.standalone_iff] at hlater
  · exact (List.mem_append.mp hm).elim a.expanded b.expanded

/-- What waits besides is not touched. -/
theorem frame (a : tr.Dealt g t t' before after deeds) (k : Nat) :
    tr.Dealt g t t' (before + k) (after + k) deeds := by
  refine ⟨a.akin, fun hg => ?_, a.walked, a.expanded⟩
  have := a.balance hg
  omega

theorem of_eq {before' after' : Nat} (a : tr.Dealt g t t' before after deeds)
    (hbefore : before = before') (hafter : after = after') :
    tr.Dealt g t t' before' after' deeds := by
  subst hbefore hafter
  exact a

/-- After a step that does nothing. -/
theorem after_idle (hakin : t.Akin t') (hsame : between = before)
    (b : tr.Dealt g t' t'' between after deeds) : tr.Dealt g t t'' before after deeds :=
  (Dealt.idle hakin hsame).trans b

/-- Before a step that does nothing. -/
theorem then_idle (a : tr.Dealt g t t' before between deeds) (hakin : t'.Akin t'')
    (hsame : after = between) : tr.Dealt g t t'' before after deeds := by
  have hboth := a.trans (.idle hakin hsame)
  rwa [List.append_nil] at hboth

/-- A registered cluster is expanded. -/
theorem expand (hc : (tr.clusters.get? h).isSome = true)
    (a : tr.Dealt g t t' before after deeds) :
    tr.Dealt g t t' ([h].count g + before) after (.expand h :: deeds) := by
  refine ⟨a.akin, fun hg => ?_, fun hm => a.walked ?_, fun hm => ?_⟩
  · have hrest := a.balance hg
    have hcount : [Deed.expand h].count (.expand g) = [h].count g := by
      simp [List.count_singleton]
    rw [← List.singleton_append, List.count_append, List.count_append, hcount]
    simp
    omega
  · simpa using hm
  · rcases List.mem_cons.mp hm with he | hm
    · cases he
      exact hc
    · exact a.expanded hm

/-- A standalone object is walked. -/
theorem walk (hs : t.Standalone h) (a : tr.Dealt g t t' before after deeds) :
    tr.Dealt g t t' ([h].count g + before) after (.walk h :: deeds) := by
  refine ⟨a.akin, fun hg => ?_, fun hm => ?_, fun hm => a.expanded ?_⟩
  · have hrest := a.balance hg
    have hcount : [Deed.walk h].count (.walk g) = [h].count g := by
      simp [List.count_singleton]
    rw [← List.singleton_append, List.count_append, List.count_append, hcount]
    simp
    omega
  · rcases List.mem_cons.mp hm with he | hm
    · cases he
      exact hs
    · exact a.walked hm
  · simpa using hm

/-- A member of a cluster was queued for nothing. -/
theorem pass {o : Object} {r : Handle} (ho : t.get? h = some o) (hown : o.owner = some r)
    (hroot : o.has .clusterRoot = false) (a : tr.Dealt g t t' before after deeds) :
    tr.Dealt g t t' ([h].count g + before) after deeds := by
  refine ⟨a.akin, fun hg => ?_, a.walked, a.expanded⟩
  have hne : h ≠ g := by
    rintro rfl
    exact hg r (by simp [Table.kind, ho, hown, hroot])
  have hrest := a.balance hg
  rw [List.count_singleton, beq_eq_false_iff_ne.mpr hne]
  simpa using hrest

end Dealt

end Tracer

namespace Marking

/-- The deeds that wait for an object: one if it waits to be claimed, and one each time it is queued. -/
def owed (m : Marking) (g : Handle) : Nat := m.output.reached.toList.count g + m.table.asleep g

variable {m : Marking} {g h : Handle} {o : Object}

theorem owed_congr {m' : Marking} (hreached : m'.output.reached = m.output.reached)
    (htable : m'.table.asleep g = m.table.asleep g) : m'.owed g = m.owed g := by
  rw [owed, owed, hreached, htable]

theorem owed_setInCluster (m : Marking) (h : Handle) :
    (m.setFlag h .reachableInCluster).owed g = m.owed g :=
  owed_congr rfl (m.table.asleep_modify h fun o => by simp [Object.isUnreachable])

theorem owed_clearNoStrong (m : Marking) (h : Handle) :
    (m.clearFlag h .noStrongReference).owed g = m.owed g :=
  owed_congr rfl (m.table.asleep_modify h fun o => by simp [Object.isUnreachable])

theorem owed_reach (m : Marking) (h : Handle) : (m.reach h).owed g = [h].count g + m.owed g := by
  have hcount : (m.reach h).output.reached.toList = m.output.reached.toList ++ [h] := by
    simp [reach]
  unfold owed
  rw [hcount, List.count_append]
  change _ + _ + m.table.asleep g = _
  omega

/-- An object that loses its flag is owed one deed less. -/
theorem owed_unflag (ho : m.table.get? h = some o) (hu : o.isUnreachable = true) :
    [h].count g + (m.clearFlag h .unreachable).owed g = m.owed g := by
  have hcount := Table.asleep_clear (g := g) ho hu
  unfold owed
  change _ + (m.output.reached.toList.count g + (m.table.clearFlag h .unreachable).asleep g) = _
  omega

theorem owed_claim (ho : m.table.get? h = some o) (hu : o.isUnreachable = true) :
    [h].count g + (m.claim h).owed g = m.owed g := by
  rw [claim, owed_clearNoStrong]
  exact owed_unflag ho hu

end Marking

namespace Tracer

variable {tr : Tracer} {g h : Handle} {m m' : Marking} {o : Object}
  {expand : Handle → Marking → Except Fault Marking}
  {expandDeeds : Handle → Marking → List Deed}

/-- What is asked of a call that expands the cluster of a root: the root is one deed more that waits. -/
abbrev DealtAll (tr : Tracer) (g : Handle) (expand : Handle → Marking → Except Fault Marking)
    (expandDeeds : Handle → Marking → List Deed) : Prop :=
  ∀ r m m', expand r m = .ok m' →
    tr.Dealt g m.table m'.table ([r].count g + m.owed g) (m'.owed g) (expandDeeds r m)

theorem reachMember_dealt (hexp : tr.DealtAll g expand expandDeeds)
    (hok : tr.reachMember expand h m = .ok m') :
    tr.Dealt g m.table m'.table (m.owed g) (m'.owed g) (tr.reachMemberDeeds expandDeeds h m) := by
  have hset : m.table.Akin (m.setFlag h .reachableInCluster).table :=
    .setFlag (by decide) m.table h
  have howed : (m.setFlag h .reachableInCluster).owed g = m.owed g := m.owed_setInCluster h
  unfold reachMember at hok
  unfold reachMemberDeeds
  cases ho : m.table.get? h with
  | none =>
    simp only [ho] at hok ⊢
    cases hok
    exact .idle (.refl _) rfl
  | some o =>
    simp only [ho] at hok ⊢
    split at hok
    · rename_i hin
      cases hok
      rw [if_pos hin]
      exact .idle (.refl _) rfl
    · rename_i hin
      rw [if_neg hin]
      split at hok
      · rename_i hk
        rw [if_pos hk]
        cases hown : o.owner with
        | none =>
          simp only [hown] at hok ⊢
          cases hok
          exact .idle hset howed
        | some r =>
          simp only [hown] at hok ⊢
          cases hroot : (m.setFlag h .reachableInCluster).table.get? r with
          | none =>
            simp only [hroot] at hok
            cases hok
          | some root =>
            simp only [hroot] at hok ⊢
            split at hok
            · rename_i hu
              rw [if_pos hu]
              have hexpanded := hexp r _ _ hok
              rw [Marking.owed_claim hroot hu] at hexpanded
              exact hexpanded.after_idle (hset.trans (.claim _ r)) howed
            · rename_i hu
              cases hok
              rw [if_neg hu]
              exact .idle hset howed
      · rename_i hk
        cases hok
        rw [if_neg hk]
        exact .idle hset howed

/-- Marking something that a cluster knows of. Roots that are claimed join the pending clusters. -/
theorem reachMutable_dealt (hexp : tr.DealtAll g expand expandDeeds) {cluster : Handle}
    {found found' : List Handle × Marking}
    (hok : tr.reachMutable expand cluster found h = .ok found') :
    tr.Dealt g found.2.table found'.2.table (found.1.count g + found.2.owed g)
      (found'.1.count g + found'.2.owed g) (tr.reachMutableDeeds expandDeeds found h) := by
  obtain ⟨pending, m⟩ := found
  unfold reachMutable at hok
  unfold reachMutableDeeds
  dsimp only at hok ⊢
  split at hok
  · rename_i hp
    cases hok
    rw [if_pos hp]
    exact .idle (.refl _) rfl
  · rename_i hp
    rw [if_neg hp]
    cases ho : m.table.get? h with
    | none =>
      simp only [ho] at hok
      cases hok
    | some o =>
      simp only [ho] at hok ⊢
      split at hok
      · rename_i hu
        rw [if_pos hu]
        have hclaim := Marking.owed_claim (g := g) ho hu
        split at hok
        · cases hok
          refine .idle (.claim m h) ?_
          dsimp only
          rw [count_queued g h pending]
          omega
        · cases hok
          refine .idle (.claim m h) ?_
          dsimp only
          rw [Marking.owed_reach]
          omega
      · rename_i hu
        rw [if_neg hu]
        split at hok
        · rename_i hm
          rw [if_pos hm]
          obtain ⟨m', hreach, hok⟩ := except_bind_ok hok
          cases hok
          have hdealt := (reachMember_dealt hexp hreach).frame (pending.count g)
          exact hdealt.of_eq (Nat.add_comm ..) (Nat.add_comm ..)
        · rename_i hm
          cases hok
          rw [if_neg hm]
          exact .idle (.refl _) rfl

theorem reachCluster_dealt {cluster : Handle} {found found' : List Handle × Marking}
    (hok : tr.reachCluster cluster found h = .ok found') :
    tr.Dealt g found.2.table found'.2.table (found.1.count g + found.2.owed g)
      (found'.1.count g + found'.2.owed g) [] := by
  obtain ⟨pending, m⟩ := found
  unfold reachCluster at hok
  dsimp only at hok
  cases ho : m.table.get? h with
  | none =>
    simp only [ho] at hok
    cases hok
  | some root =>
    simp only [ho] at hok
    cases hok
    split
    · rename_i hu
      have hclaim := Marking.owed_claim (g := g) ho hu
      refine .idle (.claim m h) ?_
      dsimp only
      rw [count_queued g h pending]
      omega
    · exact .idle (.refl _) rfl

/-- Going through the roots that a cluster references. -/
theorem reachClusters_dealt {cluster : Handle} {l : List Handle} :
    ∀ {found found' : List Handle × Marking}, l.foldlM (tr.reachCluster cluster) found = .ok found' →
      tr.Dealt g found.2.table found'.2.table (found.1.count g + found.2.owed g)
        (found'.1.count g + found'.2.owed g) [] := by
  induction l with
  | nil =>
    intro found found' hok
    cases hok
    exact .idle (.refl _) rfl
  | cons h rest ih =>
    intro found found' hok
    rw [List.foldlM_cons] at hok
    obtain ⟨next, hfirst, hok⟩ := except_bind_ok hok
    exact (reachCluster_dealt hfirst).trans (ih hok)

/-- Every pending cluster is expanded. The induction follows the calls. -/
theorem expandPending_dealt (fuel : Nat) (pending : List Handle) (m m' : Marking)
    (hok : tr.expandPending fuel pending m = .ok m') :
    tr.Dealt g m.table m'.table (pending.count g + m.owed g) (m'.owed g)
      (tr.expandPendingDeeds fuel pending m) := by
  induction fuel, pending, m using expandPending.induct tr generalizing m' with
  | case1 fuel m =>
    rw [expandPending] at hok
    cases hok
    rw [expandPendingDeeds]
    exact .idle (.refl _) (by simp)
  | case2 current pending m =>
    rw [expandPending] at hok
    cases hok
  | case3 fuel current pending m c hc ihOwner ihRest =>
    rw [expandPending, hc] at hok
    rw [expandPendingDeeds, hc]
    obtain ⟨found, hmutables, hok⟩ := except_bind_ok hok
    obtain ⟨⟨pending', next⟩, hreferenced, hok⟩ := except_bind_ok hok
    have hexp : tr.DealtAll g (fun owner m => do
        let m ← tr.expandPending fuel [owner] { m with pool := m.pool.acquire }
        return { m with pool := m.pool.release })
        (fun owner m => tr.expandPendingDeeds fuel [owner] { m with pool := m.pool.acquire }) := by
      intro r m m' hok
      obtain ⟨m₁, hpending, hok⟩ := except_bind_ok hok
      cases hok
      exact ihOwner r m m₁ hpending
    have hfirst := done_in_turn (R := fun _ (found found' : List Handle × Marking) deeds =>
      tr.Dealt g found.2.table found'.2.table (found.1.count g + found.2.owed g)
        (found'.1.count g + found'.2.owed g) deeds) (fun _ => .idle (.refl _) rfl)
      (fun _ _ _ _ _ _ _ hstep hdeeds hothers =>
        hdeeds ▸ (reachMutable_dealt hexp hstep).trans hothers) hmutables
    have hlater := (reachClusters_dealt (g := g) hreferenced).trans (ihRest pending' next m' hok)
    have hfound := (congrArg (· >>= fun found => c.referenced.foldlM (tr.reachCluster current) found)
      hmutables).trans hreferenced
    dsimp only at hfound ⊢
    rw [hfound, doneAfter_ok]
    refine ((hfirst.trans hlater).expand (by rw [hc]; rfl)).of_eq ?_ rfl
    dsimp only
    rw [count_queued g current pending]
    omega
  | case4 fuel current pending m hnone =>
    rw [expandPending, Option.eq_none_iff_forall_ne_some.mpr hnone] at hok
    cases hok

theorem expand_dealt : tr.DealtAll g tr.expand tr.expandDeeds := by
  intro r m m' hok
  unfold expand at hok
  obtain ⟨next, hpending, hok⟩ := except_bind_ok hok
  cases hok
  exact expandPending_dealt _ [r] _ next hpending

end Tracer

end TracingHeap
