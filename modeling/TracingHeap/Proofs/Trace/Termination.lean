import TracingHeap.Proofs.Outcome
import TracingHeap.Proofs.Table.Basic
import TracingHeap.Marking.Edge

namespace TracingHeap

/-- A change of one entry changes the count of a list by what it does to the entry. -/
theorem countP_modify {α : Type} (p : α → Bool) (f : α → α) {a : α} :
    ∀ {l : List α} {i : Nat}, l[i]? = some a →
      (l.modify i f).countP p + (p a).toNat = l.countP p + (p (f a)).toNat := by
  intro l
  induction l with
  | nil =>
    intro i ha
    cases ha
  | cons b rest ih =>
    intro i ha
    cases i with
    | zero =>
      cases ha
      rw [List.modify_zero_cons, List.countP_cons, List.countP_cons]
      cases p a <;> cases p (f a) <;> rfl
    | succ i =>
      rw [List.modify_succ_cons, List.countP_cons, List.countP_cons]
      have := ih (i := i) ha
      omega

namespace Table

variable {t : Table} {h : Handle} {o : Object}

def flaggedCount (t : Table) : Nat := t.slots.toList.countP fun slot => slot.any (·.isUnreachable)

theorem flaggedCount_le (t : Table) : t.flaggedCount ≤ t.capacity :=
  Nat.le_trans List.countP_le_length (Nat.le_of_eq Array.length_toList)

theorem flaggedCount_modify (ho : t.get? h = some o) (f : Object → Object) :
    (t.modify h f).flaggedCount + o.isUnreachable.toNat =
      t.flaggedCount + (f o).isUnreachable.toNat := by
  have hslot : t.slots.toList[h.index]? = some (some o) := by
    rw [Array.getElem?_toList]
    rw [get?, slot?] at ho
    cases hs : t.slots[h.index]? with
    | none => simp [hs] at ho
    | some slot => simpa [hs] using ho
  unfold flaggedCount modify
  rw [Array.toList_modify]
  exact countP_modify _ (Option.map f) hslot

/-- A change that leaves the flag alone. -/
theorem flaggedCount_modify_same {f : Object → Object}
    (hf : ∀ o, (f o).isUnreachable = o.isUnreachable) (t : Table) (h : Handle) :
    (t.modify h f).flaggedCount = t.flaggedCount := by
  have hmodify : ∀ (l : List (Option Object)) i,
      (l.modify i (Option.map f)).countP (fun slot => slot.any (·.isUnreachable)) =
        l.countP fun slot => slot.any (·.isUnreachable) := by
    intro l i
    cases hs : l[i]? with
    | none => rw [List.modify_eq_self (List.getElem?_eq_none_iff.mp hs)]
    | some slot =>
      have hcount := countP_modify (fun slot => slot.any (·.isUnreachable)) (Option.map f) hs
      have hsame : (Option.map f slot).any (·.isUnreachable) = slot.any (·.isUnreachable) := by
        cases slot <;> simp [hf]
      rw [hsame] at hcount
      omega
  unfold flaggedCount modify
  rw [Array.toList_modify]
  exact hmodify _ _

theorem flaggedCount_setFlag {f : Flag} (hf : f ≠ .unreachable) (t : Table) (h : Handle) :
    (t.setFlag h f).flaggedCount = t.flaggedCount :=
  flaggedCount_modify_same (fun o => by simp [Object.isUnreachable, hf]) t h

theorem flaggedCount_clearFlag {f : Flag} (hf : f ≠ .unreachable) (t : Table) (h : Handle) :
    (t.clearFlag h f).flaggedCount = t.flaggedCount :=
  flaggedCount_modify_same (fun o => by simp [Object.isUnreachable, hf]) t h

theorem flaggedCount_clearSite (t : Table) (s : Site) :
    (t.clearSite s).flaggedCount = t.flaggedCount :=
  flaggedCount_modify_same (f := (·.clearSlot s.address)) (fun _ => rfl) t s.object

/-- A flagged object that loses its flag is one less. -/
theorem flaggedCount_clear (ho : t.get? h = some o) (hu : o.isUnreachable = true) :
    (t.clearFlag h .unreachable).flaggedCount + 1 = t.flaggedCount := by
  have hcount := flaggedCount_modify ho (·.clear .unreachable)
  rw [hu] at hcount
  simpa [Object.isUnreachable, clearFlag] using hcount

end Table

def Schema.Streamed (s : Schema) : Prop := ∀ e ∈ s.classes, e.stream.isOk = true

theorem Schema.Streamed.stream {s : Schema} (hs : s.Streamed) (id : ClassId) (f : Fault) :
    s.stream id ≠ .error (.fault f) := by
  unfold Schema.stream Schema.get Schema.get?
  cases he : s.classes[id.index]? with
  | none => simp [bind, Except.bind]
  | some e =>
    have hok := hs e (Array.mem_of_getElem? he)
    cases hstream : e.stream with
    | error f =>
      rw [hstream] at hok
      cases hok
    | ok ts => simp [bind, Except.bind, hstream]

/-- Faults of some kind come neither from a heap in disorder nor from a class without a token stream. -/
structure Schema.Averts (s : Schema) (bad : Fault → Prop) : Prop where
  broken : ∀ f : Fault, f.Broken → ¬ bad f
  stream : ∀ id f, s.stream id = .error (.fault f) → ¬ bad f

/-- Where every class has a token stream, only a heap in disorder leads to a fault. -/
theorem Schema.Streamed.averts {s : Schema} (hs : s.Streamed) : s.Averts Fault.Mishap :=
  ⟨fun _ hf => hf.not_mishap, fun id f hf => absurd hf (hs.stream id f)⟩

namespace Marking

variable {m m' m'' : Marking} {h : Handle} {o : Object}

/-- A task goes on from one state to a later one: what it has claimed is no longer flagged, and it has
given back what it borrowed. -/
structure Spends (m m' : Marking) : Prop where
  flagged : m'.table.flaggedCount ≤ m.table.flaggedCount
  reached : m'.table.flaggedCount + m'.output.reached.size ≤
    m.table.flaggedCount + m.output.reached.size
  inUse : m'.pool.inUse = m.pool.inUse
  tidy : m.table.Tidy → m'.table.Tidy

namespace Spends

theorem refl (m : Marking) : m.Spends m := ⟨Nat.le_refl _, Nat.le_refl _, rfl, id⟩

theorem trans (a : m.Spends m') (b : m'.Spends m'') : m.Spends m'' :=
  ⟨Nat.le_trans b.flagged a.flagged, Nat.le_trans b.reached a.reached, b.inUse.trans a.inUse,
    b.tidy ∘ a.tidy⟩

/-- A change of the table that leaves the flags alone. -/
theorem of_table (hcount : m'.table.flaggedCount = m.table.flaggedCount)
    (hreached : m'.output.reached = m.output.reached) (hpool : m'.pool = m.pool)
    (htidy : m.table.Tidy → m'.table.Tidy) : m.Spends m' :=
  ⟨Nat.le_of_eq hcount, Nat.le_of_eq (by rw [hcount, hreached]), by rw [hpool], htidy⟩

theorem setFlag {f : Flag} (hf : f ≠ .unreachable) (m : Marking) (h : Handle) :
    m.Spends (m.setFlag h f) :=
  .of_table (Table.flaggedCount_setFlag hf m.table h) rfl rfl fun ht => ht.setFlag h f

theorem clearFlag {f : Flag} (hf : f ≠ .unreachable) (m : Marking) (h : Handle) :
    m.Spends (m.clearFlag h f) :=
  .of_table (Table.flaggedCount_clearFlag hf m.table h) rfl rfl fun ht => ht.clearFlag h f

theorem countScanned (m : Marking) : m.Spends m.countScanned :=
  .of_table rfl rfl rfl id

theorem revisit (m : Marking) (s : Site) : m.Spends (m.revisit s) := .of_table rfl rfl rfl id

theorem clearSite (m : Marking) (s : Site) :
    m.Spends { m with table := m.table.clearSite s } :=
  .of_table (Table.flaggedCount_clearSite m.table s) rfl rfl fun ht => ht.modify _ fun _ => rfl

section

variable (ho : m.table.get? h = some o) (hu : o.isUnreachable = true)
include ho hu

theorem unflag : m.Spends (m.clearFlag h .unreachable) := by
  have hcount := Table.flaggedCount_clear ho hu
  refine ⟨?_, ?_, rfl, fun ht => ht.clearFlag h _⟩
  · change (m.table.clearFlag h .unreachable).flaggedCount ≤ _
    omega
  · change (m.table.clearFlag h .unreachable).flaggedCount + m.output.reached.size ≤ _
    omega

/-- What is claimed is one flagged object less. -/
theorem claimed : (m.claim h).table.flaggedCount + 1 = m.table.flaggedCount := by
  have hcount := Table.flaggedCount_clear ho hu
  change ((m.table.clearFlag h .unreachable).clearFlag h .noStrongReference).flaggedCount + 1 = _
  rwa [Table.flaggedCount_clearFlag (by decide)]

theorem claim : m.Spends (m.claim h) :=
  (unflag ho hu).trans (clearFlag (by decide) (m.clearFlag h .unreachable) h)

end

/-- A scratch list that was borrowed for the work is given back. -/
theorem lent (a : Spends { m with pool := m.pool.acquire } m') :
    m.Spends { m' with pool := m'.pool.release } := by
  refine ⟨a.flagged, a.reached, ?_, a.tidy⟩
  have hinUse : m'.pool.inUse = m.pool.inUse + 1 := a.inUse
  change m'.pool.inUse - 1 = _
  omega

/-- An object that joins the next wave has lost its flag for it. -/
theorem reach (hclaimed : m'.table.flaggedCount + 1 = m.table.flaggedCount) (a : m.Spends m')
    (hreached : m'.output.reached = m.output.reached) : m.Spends (m'.reach h) := by
  refine ⟨a.flagged, ?_, a.inUse, a.tidy⟩
  change m'.table.flaggedCount + (m'.output.reached.push h).size ≤ _
  rw [Array.size_push, hreached]
  omega

end Spends

end Marking

namespace Tracer

variable {bad : Fault → Prop} {tr : Tracer} {m : Marking} {h : Handle} {o : Object} {n : Nat}
  {expand : Handle → Marking → Except Fault Marking}

theorem corrupt_averted (hs : tr.schema.Averts bad) (target : Nat) (holder : Option Object)
    (token : Option Nat) : ¬ bad (tr.corrupt target holder token) := by
  unfold corrupt
  dsimp only
  split
  · split
    · exact hs.broken _ trivial
    · exact hs.broken _ trivial
    · rename_i f hf
      exact hs.stream _ f hf
  · exact hs.broken _ trivial

section

variable (hs : tr.schema.Averts bad)
  (hexp : ∀ r m, m.table.flaggedCount < n → Ends bad (expand r m) m.Spends)
include hs hexp

theorem reachMember_spends (hn : m.table.flaggedCount ≤ n) :
    Ends bad (tr.reachMember expand h m) m.Spends := by
  unfold reachMember
  split
  · exact .refl m
  · rename_i o ho
    split
    · exact .refl m
    · have hset := Marking.Spends.setFlag (f := .reachableInCluster) (by decide) m h
      dsimp only
      split
      · split
        · exact hset
        · rename_i r hr
          split
          · exact corrupt_averted hs _ _ _
          · rename_i root hroot
            split
            · rename_i hu
              have hclaimed := Marking.Spends.claimed hroot hu
              have hflagged := hset.flagged
              refine (hexp r _ (by omega)).mono fun m' hm' => ?_
              exact (hset.trans (.claim hroot hu)).trans hm'
            · exact hset
      · exact hset

theorem reachMutable_spends (cluster : Handle) (pending : List Handle)
    (hn : m.table.flaggedCount ≤ n) :
    Ends bad (tr.reachMutable expand cluster (pending, m) h) fun found =>
      m.Spends found.2 ∧ found.2.table.flaggedCount + found.1.length ≤
        m.table.flaggedCount + pending.length := by
  unfold reachMutable
  dsimp only
  split
  · exact ⟨.refl m, Nat.le_refl _⟩
  · split
    · exact corrupt_averted hs _ _ _
    · rename_i o ho
      split
      · rename_i hu
        have hclaimed := Marking.Spends.claimed ho hu
        split
        · refine ⟨.claim ho hu, ?_⟩
          rw [List.length_cons]
          dsimp only
          omega
        · refine ⟨.reach hclaimed (.claim ho hu) rfl, ?_⟩
          change (m.claim h).table.flaggedCount + pending.length ≤ _
          omega
      · split
        · refine (reachMember_spends hs hexp hn).bind fun m' _ hm' => ⟨hm', ?_⟩
          exact Nat.add_le_add_right hm'.flagged _
        · exact ⟨.refl m, Nat.le_refl _⟩

end

theorem reachCluster_spends (hs : tr.schema.Averts bad) (cluster : Handle) (pending : List Handle) :
    Ends bad (tr.reachCluster cluster (pending, m) h) fun found =>
      m.Spends found.2 ∧ found.2.table.flaggedCount + found.1.length ≤
        m.table.flaggedCount + pending.length := by
  unfold reachCluster
  dsimp only
  split
  · exact corrupt_averted hs _ _ _
  · rename_i root hroot
    split
    · rename_i hu
      have hclaimed := Marking.Spends.claimed hroot hu
      refine ⟨.claim hroot hu, ?_⟩
      rw [List.length_cons]
      dsimp only
      omega
    · exact ⟨.refl m, Nat.le_refl _⟩

/-- Marking what a cluster knows of, one after the other. What is claimed for it waits, or is no longer
flagged. -/
theorem fold_spends {f : List Handle × Marking → Handle → Except Fault (List Handle × Marking)}
    (hf : ∀ (pending : List Handle) (m : Marking) (h : Handle),
      m.table.flaggedCount + pending.length ≤ n →
        Ends bad (f (pending, m) h) fun found => m.Spends found.2 ∧
          found.2.table.flaggedCount + found.1.length ≤ m.table.flaggedCount + pending.length)
    (l : List Handle) {b : List Handle × Marking}
    (hn : b.2.table.flaggedCount + b.1.length ≤ n) :
    Ends bad (l.foldlM f b) fun found => b.2.Spends found.2 ∧
      found.2.table.flaggedCount + found.1.length ≤ n := by
  refine Ends.foldlM (fun _ (found : List Handle × Marking) => b.2.Spends found.2 ∧
    found.2.table.flaggedCount + found.1.length ≤ n) (fun h _ found hfound => ?_) ⟨.refl _, hn⟩
  exact (hf found.1 found.2 h hfound.2).mono fun next hnext =>
    ⟨hfound.1.trans hnext.1, Nat.le_trans hnext.2 hfound.2⟩

/-- The clusters that wait and the objects still flagged bound the clusters to be met. -/
theorem expandPending_spends (hs : tr.schema.Averts bad) (fuel : Nat) (pending : List Handle)
    (m : Marking) (hfuel : m.table.flaggedCount + pending.length ≤ fuel) :
    Ends bad (tr.expandPending fuel pending m) m.Spends := by
  induction fuel, pending, m using expandPending.induct tr with
  | case1 fuel m =>
    rw [expandPending]
    exact .refl m
  | case2 current pending m =>
    rw [List.length_cons] at hfuel
    omega
  | case3 fuel current pending m c hc ihOwner ihRest =>
    rw [expandPending, hc]
    have hstart : m.table.flaggedCount + pending.length ≤ fuel := Nat.le_of_succ_le_succ hfuel
    have hexp : ∀ r (m : Marking), m.table.flaggedCount < fuel → Ends bad (do
        let m ← tr.expandPending fuel [r] { m with pool := m.pool.acquire }
        return { m with pool := m.pool.release }) m.Spends := fun r m hm =>
      (ihOwner r m hm).bind fun m' _ hm' => hm'.lent
    have hmutables := fold_spends (fun pending m h hm => reachMutable_spends (h := h) hs hexp
      current pending (Nat.le_trans (Nat.le_add_right ..) hm)) c.mutables
      (b := (pending, m)) hstart
    refine hmutables.bind fun found _ hfound => ?_
    have hreferenced := fold_spends
      (fun pending m h _ => reachCluster_spends (h := h) hs current pending) c.referenced hfound.2
    refine hreferenced.bind fun next _ hnext => ?_
    exact (ihRest next.1 next.2 hnext.2).mono fun m' hm' => (hfound.1.trans hnext.1).trans hm'
  | case4 fuel current pending m hnone =>
    rw [expandPending, Option.eq_none_iff_forall_ne_some.mpr hnone]
    exact hs.broken _ trivial

theorem expand_spends (hs : tr.schema.Averts bad) (root : Handle) (m : Marking) :
    Ends bad (tr.expand root m) m.Spends := by
  unfold expand
  have hbound := Nat.succ_le_succ m.table.flaggedCount_le
  exact (expandPending_spends hs _ [root] { m with pool := m.pool.acquire } hbound).bind
    fun m' _ hm' => hm'.lent

theorem reach_spends (hs : tr.schema.Averts bad) (h : Handle) (m : Marking) :
    Ends bad (tr.reachMember tr.expand h m) m.Spends :=
  reachMember_spends hs (fun r m _ => expand_spends hs r m) (Nat.le_refl _)

theorem followStrong_spends (hs : tr.schema.Averts bad) (ho : m.table.get? o.handle = some o) :
    Ends bad (tr.followStrong o m) m.Spends := by
  have hlast : ∀ m' : Marking, m.Spends m' → m.Spends
      (if o.has .noStrongReference = true then m'.clearFlag o.handle .noStrongReference else m') := by
    intro m' hm'
    split
    · exact hm'.trans (.clearFlag (by decide) m' o.handle)
    · exact hm'
  unfold followStrong
  dsimp only
  split
  · rename_i hu
    split
    · exact hs.broken _ trivial
    · split
      · refine (expand_spends hs o.handle _).bind fun m' _ hm' => hlast m' ?_
        exact (Marking.Spends.unflag ho hu).trans hm'
      · refine hlast _ (.reach ?_ (.unflag ho hu) rfl)
        exact Table.flaggedCount_clear ho hu
  · split
    · exact (reach_spends hs o.handle m).bind fun m' _ hm' => hlast m' hm'
    · exact hlast m (.refl m)

theorem visit_spends (hs : tr.schema.Averts bad) (ht : m.table.Tidy) (o : Object) (v : Visit) :
    Ends bad (tr.visit o m v) m.Spends := by
  unfold visit
  dsimp only
  split
  · rename_i slot _
    have hfollow : Ends bad (tr.follow (some o) (some v.token) slot v.strength m)
        fun found => m.Spends found.2 := by
      unfold follow
      split
      · exact .refl m
      · rename_i h
        split
        · exact .refl m
        · split
          · exact corrupt_averted hs _ _ _
          · rename_i target htarget
            split
            · exact .refl m
            · split
              · exact .refl m
              · have htarget' : m.table.get? target.handle = some target :=
                  (ht.handle_eq htarget).symm ▸ htarget
                exact (followStrong_spends hs htarget').bind fun m' _ hm' => hm'
    refine hfollow.bind ?_
    rintro ⟨fate, m'⟩ _ hm'
    dsimp only at hm' ⊢
    split
    · exact hm'
    · exact hm'.trans (.clearSite m' _)
    · exact hm'.trans (.revisit m' _)
  · exact .refl m

end Tracer

end TracingHeap
