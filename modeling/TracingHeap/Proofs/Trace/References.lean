import TracingHeap.Proofs.Trace.ClusterExpansion

namespace TracingHeap

namespace Tracer

variable {tr : Tracer} {good rest : Handle → Prop} {kept : Site → Prop} {m : Marking} {g h : Handle}
  {o : Object}

/-- Following a strong reference marks its target. -/
theorem followStrong_spec (p : Pass tr good rest kept m) (ho : m.table.get? h = some o)
    (hp : m.table.isPermanent h = false) (hg : good h) :
    Yields (tr.followStrong o m) fun m' =>
      Pass tr good rest kept m' ∧ m.Grows tr.schema m' ∧ m'.table.Marked h := by
  have hh := p.orderly.tidy.handle_eq ho
  have tail : ∀ m₁, Pass tr good rest kept m₁ → m.Grows tr.schema m₁ → m₁.table.Marked h →
      Yields (.ok (if o.has .noStrongReference then m₁.clearFlag h .noStrongReference else m₁))
        fun m' => Pass tr good rest kept m' ∧ m.Grows tr.schema m' ∧ m'.table.Marked h := by
    intro m₁ p₁ g₁ hm
    have hp₁ : m₁.table.isPermanent h = false := by
      rw [g₁.table.isPermanent]
      exact hp
    split
    · have g₂ : m₁.Grows tr.schema (m₁.clearFlag h .noStrongReference) := .clearFlag hp₁ (.inr rfl)
      exact ⟨p₁.clearNoStrong hp₁, g₁.trans g₂, g₂.table.marked hm⟩
    · exact ⟨p₁, g₁, hm⟩
  unfold followStrong
  simp only [hh]
  split
  · rename_i hu
    have hn := p.owner_eq_none ho hu
    have hfree := Marking.free_clearFlag ho hn
    have g₁ : m.Grows tr.schema (m.clearFlag h .unreachable) := .clearFlag hp (.inl rfl)
    have p₁ := p.clearUnreachable ho hp hn hg
    split
    · rename_i hown
      simp [hn] at hown
    · split
      · rename_i hroot
        refine (expand_spec rest kept h _ p₁ ?_).bind fun m₂ _ h₂ => ?_
        · exact p.orderly.enrolled.registered h o ho hroot
        · exact tail m₂ h₂.1 (g₁.trans h₂.2) (h₂.2.table.marked hfree.marked)
      · exact tail _ p₁.reach ⟨g₁.table, g₁.weak⟩ hfree.marked
  · rename_i hu
    rw [Bool.not_eq_true] at hu
    split
    · rename_i hm
      rw [Bool.and_eq_true] at hm
      refine (reachMember_spec expand_spec p ho hp hm.1 hg).bind fun m₁ _ h₁ => ?_
      exact tail m₁ h₁.1 h₁.2.1 h₁.2.2
    · rename_i hm
      exact tail m p (.refl m) (Table.marked_of_unclaimed ho hu hm)

def Decided (m m' : Marking) (site : Site) (g : Handle) (k : Strength) : SlotFate → Prop
  | .keep => Followed m'.table (fun _ => False) site g k ∧ m'.table.Tenable g
  | .null => m' = m ∧ m.table.isPermanent g = false ∧ m.table.has g .pendingKill = true
  | .revisit => m' = m ∧ k = .weak ∧ m.table.Tenable g

/-- Following the reference in a slot. -/
theorem follow_spec (p : Pass tr good rest kept m) (holder : Option Object) (token : Option Nat)
    (site : Site) (k : Strength) (hlive : ∃ o, m.table.get? g = some o)
    (hg : k = .strong → m.table.isPermanent g = false → m.table.has g .pendingKill = false →
      good g) :
    Yields (tr.follow holder token (some g) k m) fun found =>
      Pass tr good rest kept found.2 ∧ m.Grows tr.schema found.2 ∧
        Decided m found.2 site g k found.1 := by
  obtain ⟨o, ho⟩ := hlive
  simp only [follow]
  split
  · rename_i hp
    refine ⟨p, .refl m, ?_, .inl hp⟩
    cases k with
    | strong => exact .inl hp
    | weak => exact .inl hp
  · rename_i hp
    rw [Bool.not_eq_true] at hp
    simp only [ho]
    split
    · rename_i hk
      exact ⟨p, .refl m, rfl, hp, by rw [Table.has_of_get? ho]; exact hk⟩
    · rename_i hk
      rw [Bool.not_eq_true] at hk
      have hten : m.table.Tenable g := .inr (by rw [Table.has_of_get? ho]; exact hk)
      cases k with
      | weak =>
        simp only
        split
        · exact ⟨p, .refl m, rfl, rfl, hten⟩
        · rename_i hstay
          simp only [Bool.or_eq_true, not_or, Bool.not_eq_true, Option.isSome_eq_false_iff,
            Option.isNone_iff_eq_none] at hstay
          exact ⟨p, .refl m, .inr (.inl ⟨o, ho, hstay.2, hstay.1⟩), hten⟩
      | strong =>
        have hgood := hg rfl hp (by rw [Table.has_of_get? ho]; exact hk)
        refine (followStrong_spec p ho hp hgood).bind fun m' _ hm' => ?_
        exact ⟨hm'.1, hm'.2.1, hm'.2.2, hten.advance hm'.2.1.table⟩

/-- Emptying a slot that leads to a killed object keeps the invariant. -/
theorem clearSite_spec (p : Pass tr good rest kept m) {site : Site}
    (hp : m.table.isPermanent site.object = false) (hslot : m.table.slotAt? site = some (some g))
    (hk : m.table.has g .pendingKill = true) :
    Pass tr good rest kept { m with table := m.table.clearSite site } ∧
      m.Grows tr.schema { m with table := m.table.clearSite site } := by
  have hadv : m.table.Advances tr.schema (m.table.clearSite site) := by
    refine Table.Advances.modify hp (fun _ => rfl) fun o ho => ?_
    have hs : o.slot? site.address = some (some g) := by simpa [Table.slotAt?, ho] using hslot
    exact ⟨.clearSlot (fun hf => hf.clearSlot _) hs hk, rfl, fun _ _ _ _ => rfl, id, id⟩
  refine ⟨Tracing.quiet p hadv fun x q q' hq hq' => ?_, hadv, fun _ hx => hx⟩
  rw [Table.clearSite, Table.get?_modify, hq] at hq'
  split at hq'
  · cases hq'
    exact ⟨rfl, rfl⟩
  · cases hq'
    exact ⟨rfl, rfl⟩

/-- A slot has been looked at: whatever it holds now it may hold, and has been followed. -/
def LookedAt (kept : Site → Prop) (m : Marking) (site : Site) (k : Strength) : Prop :=
  ∀ g, m.table.slotAt? site = some (some g) →
    Followed m.table (fun x => kept x ∨ x ∈ m.output.weak) site g k ∧ m.table.Tenable g

theorem LookedAt.grows {s : Schema} {m' : Marking} {site : Site} {k : Strength}
    (hs : LookedAt kept m site k) (hgrow : m.Grows s m') : LookedAt kept m' site k := by
  intro g hslot
  have hback := Table.Evolves.slotAt?_back hgrow.table (fun _ _ _ hr => hr.1.toThins) hslot
  obtain ⟨hfollowed, hten⟩ := hs g hback
  exact ⟨hfollowed.advance hgrow.table fun y hy => hy.imp_right (hgrow.weak y),
    hten.advance hgrow.table⟩

/-- What becomes of a slot of a waiting object leaves it looked at. -/
theorem decided_spec {m' : Marking} (p : Pass tr good rest kept m') (hgrow : m.Grows tr.schema m')
    {site : Site} {k : Strength} (hp : m.table.isPermanent site.object = false)
    (hslot : m.table.slotAt? site = some (some g)) {fate : SlotFate}
    (hd : Decided m m' site g k fate) :
    Yields (match fate with
      | .keep => .ok m'
      | .null => .ok { m' with table := m'.table.clearSite site }
      | .revisit => .ok (m'.revisit site)) fun m₁ =>
        Pass tr good rest kept m₁ ∧ m.Grows tr.schema m₁ ∧ LookedAt kept m₁ site k := by
  cases fate with
  | keep =>
    refine ⟨p, hgrow, fun g' hg' => ?_⟩
    have hback := Table.Evolves.slotAt?_back hgrow.table (fun _ _ _ hr => hr.1.toThins) hg'
    rw [hslot] at hback
    cases hback
    obtain ⟨hfollowed, hten⟩ := hd
    have hstay : m'.table.Advances tr.schema m'.table := .refl _
    exact ⟨hfollowed.advance hstay fun _ hx => hx.elim, hten⟩
  | null =>
    obtain ⟨rfl, -, hkill⟩ := hd
    obtain ⟨hpass', hgrow'⟩ := clearSite_spec p hp hslot hkill
    exact ⟨hpass', hgrow', fun g' hg' => absurd hg' (Table.slotAt?_clearSite_ne _ _ _)⟩
  | revisit =>
    obtain ⟨rfl, hk, hten⟩ := hd
    have hgrow' : m'.Grows tr.schema (m'.revisit site) :=
      ⟨.refl _, fun x hx => Array.mem_push_of_mem _ hx⟩
    refine ⟨Tracing.remember p fun x hx => hx.imp_right (hgrow'.weak x), hgrow', fun g' hg' => ?_⟩
    have hslot' : m'.table.slotAt? site = some (some g') := hg'
    rw [hslot] at hslot'
    cases hslot'
    rw [hk]
    exact ⟨.inr (.inr (.inr (by simp [Marking.revisit]))), hten⟩

/-- Looking at one slot of a waiting standalone object. -/
theorem visit_spec (p : Pass tr good rest kept m) (hw : rest h) {q : Object} {v : Visit}
    (hh : o.handle = h) (hq : m.table.get? h = some q)
    (hrep : ∀ g, q.slot? v.address = some (some g) → tr.schema.Reports q v.address v.strength) :
    Yields (tr.visit o m v) fun m' => Pass tr good rest kept m' ∧ m.Grows tr.schema m' ∧
      LookedAt kept m' ⟨h, v.address⟩ v.strength := by
  obtain ⟨hp, hgood, -⟩ := p.queued h (.inl hw)
  unfold visit
  simp only [hh]
  split
  · rename_i slot hslot
    have hs : q.slot? v.address = some slot := by rw [← Table.slotAt?_eq hq]; exact hslot
    cases slot with
    | none =>
      simp only [follow]
      exact ⟨p, .refl m, fun g hg => by rw [hslot] at hg; cases hg⟩
    | some g =>
      have hedge : Edge tr.schema m.table h v.strength g :=
        ⟨q, v.address, hq, hrep g hs, hs⟩
      have hlive := (p.linked h v.strength g hedge (.inl hp)).1
      refine (follow_spec p (some o) (some v.token) ⟨h, v.address⟩ v.strength hlive ?_).bind ?_
      · intro hk hpg hkill
        rw [hk] at hedge
        exact p.closed.strong h g hgood hp hedge hpg (.inl hkill)
      · intro found _ hfound
        obtain ⟨hpass, hgrow, hdecided⟩ := hfound
        exact decided_spec hpass hgrow hp hslot hdecided
  · rename_i hnone
    refine ⟨p, .refl m, fun g hg => ?_⟩
    exact absurd hg (hnone _)

/-- Where the looking at an object stands, `left` being the visits still to come. -/
structure Visited (tr : Tracer) (good rest : Handle → Prop) (kept : Site → Prop) (m : Marking)
    (h : Handle) (visits left : List Visit) (m' : Marking) : Prop where
  pass : Pass tr good rest kept m'
  grows : m.Grows tr.schema m'
  ahead : ∀ v ∈ left, v ∈ visits
  looked : ∀ v ∈ visits, v ∈ left ∨ LookedAt kept m' ⟨h, v.address⟩ v.strength

theorem Visited.step {w : Walk} {v : Visit} {left : List Visit} {m' : Marking}
    (i : Visited tr good rest kept m h w.visits (v :: left) m') (p : Pass tr good rest kept m)
    (hw : rest h) (ho : m.table.get? h = some o) (hwalk : tr.schema.walk o = .ok w) :
    Yields (tr.visit o m' v) (Visited tr good rest kept m h w.visits left) := by
  have hfit := p.orderly.fits h o ho
  obtain ⟨q, hq, hadv⟩ := i.grows.table.kept ho
  have hsame : q.Same o := ⟨hadv.handle.symm, hadv.classId.symm, hadv.name.symm⟩
  have hreported : ∀ g, q.slot? v.address = some (some g) →
      tr.schema.Reports q v.address v.strength := by
    intro g hg
    have hrep : tr.schema.Reports o v.address v.strength :=
      Schema.reports_of_visit hwalk (i.ahead v (List.mem_cons_self ..))
    exact hrep.steady p.orderly.regular (hadv.fits hfit) hfit hsame hg (hadv.slot_back hg)
  apply (visit_spec i.pass hw (p.orderly.tidy.handle_eq ho) hq hreported).mono
  intro m₁ h₁
  obtain ⟨hpass, hgrow, hlooked⟩ := h₁
  refine ⟨hpass, i.grows.trans hgrow, fun x hx => i.ahead x (List.mem_cons_of_mem _ hx),
    fun x hx => ?_⟩
  rcases i.looked x hx with hl | hl
  · rcases List.mem_cons.mp hl with he | hl
    · rw [he]
      exact .inr hlooked
    · exact .inl hl
  · exact .inr (hl.grows hgrow)

/-- Looking at every slot of a waiting standalone object. The induction is on the slots left. -/
theorem visits_spec (p : Pass tr good rest kept m) (hw : rest h) (ho : m.table.get? h = some o)
    {w : Walk} (hwalk : tr.schema.walk o = .ok w) :
    Yields (w.visits.foldlM (tr.visit o) m) fun m' => Pass tr good rest kept m' ∧
      m.Grows tr.schema m' ∧ ∀ v ∈ w.visits, LookedAt kept m' ⟨h, v.address⟩ v.strength := by
  have hstart : Visited tr good rest kept m h w.visits w.visits m :=
    ⟨p, .refl m, fun _ hv => hv, fun _ hv => .inl hv⟩
  have hfold := Ends.foldlM (Visited tr good rest kept m h w.visits)
    (fun _ _ _ i => i.step p hw ho hwalk) hstart
  exact hfold.mono fun m' i =>
    ⟨i.pass, i.grows, fun v hv => (i.looked v hv).resolve_left List.not_mem_nil⟩

/-- A standalone object is done with when all its slots have been looked at. -/
theorem traced_of_lookedAt {m' : Marking} (p : Pass tr good rest kept m)
    (ho : m.table.get? h = some o) (hroot : o.has .clusterRoot = false) {w : Walk}
    (hwalk : tr.schema.walk o = .ok w) (hgrow : m.Grows tr.schema m')
    (hlooked : ∀ v ∈ w.visits, LookedAt kept m' ⟨h, v.address⟩ v.strength) :
    Traced tr.schema tr.clusters (fun x => kept x ∨ x ∈ m'.output.weak) m'.table h := by
  have hfit := p.orderly.fits h o ho
  refine ⟨fun q a k g hq _ hrep hslot => ?_, fun c hc hroot' => ?_⟩
  · obtain ⟨q', hq', hadv⟩ := hgrow.table.kept ho
    rw [hq] at hq'
    cases hq'
    have hback := hadv.slot_back hslot
    have hrep' := hrep.steady p.orderly.regular hfit (hadv.fits hfit) hadv.toSame hback hslot
    obtain ⟨w', v, hw', hv, rfl, rfl⟩ := hrep'
    rw [hwalk] at hw'
    cases hw'
    exact hlooked v hv g (by rw [Table.slotAt?_eq hq]; exact hslot)
  · obtain ⟨q, hq, hf, -⟩ := p.orderly.enrolled.root c hc
    rw [hroot', ho] at hq
    cases hq
    rw [hroot] at hf
    cases hf

/-- An object that is done with, or whose fate hangs on a cluster, need not wait any longer. -/
theorem finish_one (p : Pass tr good (fun x => x = h ∨ rest x) kept m)
    (hdone : m.table.Free h →
      Traced tr.schema tr.clusters (fun x => kept x ∨ x ∈ m.output.weak) m.table h) :
    Pass tr good rest kept m := by
  refine Tracing.finish p (fun x hx => hx.imp_left .inr) ?_
  rintro x ((hx | hx) | hx)
  · exact .inr (hx ▸ hdone)
  · exact .inl (.inl hx)
  · exact .inl (.inr hx)

/-- Looking at a waiting object marks it, and it need not wait any more. -/
theorem process_spec (p : Pass tr good (fun x => x = h ∨ rest x) kept m) :
    Yields (tr.process m h) fun m' => Pass tr good rest kept m' ∧ m.Grows tr.schema m' ∧
      m'.table.Marked h := by
  obtain ⟨hp, hgood, o, ho, hu⟩ := p.queued h (.inl (.inl rfl))
  have p₁ : Pass tr good (fun x => x = h ∨ rest x) kept m.countScanned := p
  have g₁ : m.Grows tr.schema m.countScanned := ⟨.refl _, fun _ hx => hx⟩
  simp only [process, ho]
  split
  · rename_i hroot
    obtain ⟨c, hc, rfl⟩ := p.orderly.enrolled.registered h o ho hroot
    refine (expand_spec rest kept c.root _ p₁ ⟨c, hc, rfl⟩).mono fun m' hm' => ?_
    exact ⟨hm'.1, g₁.trans hm'.2, hm'.2.table.marked (p.free_of_queued hc (.inl (.inl rfl))).marked⟩
  · rename_i hroot
    rw [Bool.not_eq_true] at hroot
    split
    · rename_i hown
      have p₂ : Pass tr good rest kept m.countScanned := by
        apply finish_one p₁
        intro hf
        obtain ⟨q, hq, hn, -⟩ := hf
        rw [show m.countScanned.table.get? h = m.table.get? h from rfl, ho] at hq
        cases hq
        rw [hn] at hown
        cases hown
      exact (reachMember_spec expand_spec p₂ ho hp hown hgood).mono fun m' hm' =>
        ⟨hm'.1, g₁.trans hm'.2.1, hm'.2.2⟩
    · rename_i hown
      rw [Option.not_isSome_iff_eq_none] at hown
      rcases p.orderly.regular.walk_cases (p.orderly.fits h o ho) with
        ⟨w, hw, hfault, -⟩ | ⟨f, hf, hover⟩
      · have hvisits := visits_spec p₁ (.inl rfl) ho hw
        rw [hw]
        simp only [orFault]
        refine hvisits.bind fun m' _ hm' => ?_
        obtain ⟨hpass, hgrow, hlooked⟩ := hm'
        rw [hfault]
        have hfree : m'.table.Marked h := hgrow.table.marked (.inr (.inl ⟨o, ho, hown, hu hown⟩))
        exact ⟨finish_one hpass fun _ => traced_of_lookedAt p₁ ho hroot hw hgrow hlooked,
          g₁.trans hgrow, hfree⟩
      · rw [hf]
        exact hover.not_broken

end Tracer

end TracingHeap
