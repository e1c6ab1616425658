import TracingHeap.Proofs.Collection.Repetition

namespace TracingHeap

namespace Cell

/-- The cell with nothing in its reference slots: its values, and the shape of what it holds. -/
def hollow : Cell → Cell
  | value n => value n
  | ref _ => ref none
  | refs ss => refs (ss.map fun _ => none)
  | structs es => structs (es.map fun row => row.map fun c => c.hollow)
  | container (.bag ss ws) => container (.bag (ss.map fun _ => none) (ws.map fun _ => none))
  | container .sealed => container .sealed
decreasing_by
  rename_i hrow hc
  have := Array.sizeOf_lt_of_mem hrow
  have := Array.sizeOf_lt_of_mem hc
  simp only [structs.sizeOf_spec]
  omega

theorem map_modify_eq {α β : Type} {f : α → β} {g : α → α} (hg : ∀ x, f (g x) = f x)
    (xs : Array α) (i : Nat) : (xs.modify i g).map f = xs.map f := by
  apply Array.ext_getElem?
  intro j
  rw [Array.getElem?_map, Array.getElem?_map, Array.getElem?_modify]
  split
  · rw [Option.map_map]
    congr 1
    funext x
    exact hg x
  · rfl

theorem hollow_clear (c : Cell) (p : Place) : (c.clear p).hollow = c.hollow := by
  have hslots : ∀ (ss : Array Slot) i, ((ss.setIfInBounds i none).map fun _ => (none : Slot)) =
      ss.map fun _ => none := by
    intro ss i
    refine Array.ext (by simp) fun j h1 h2 => ?_
    rw [Array.getElem_map, Array.getElem_map]
  induction p generalizing c with
  | here => cases c <;> simp [clear, hollow]
  | item i => cases c <;> simp only [clear, hollow, hslots]
  | strongItem i | weakItem i =>
    cases c with
    | container d => cases d <;> simp only [clear, hollow, hslots]
    | _ => rfl
  | element i offset rest ih =>
    cases c with
    | structs es =>
      simp only [clear, hollow, structs.injEq]
      exact map_modify_eq (fun row => map_modify_eq ih row offset) es i
    | _ => rfl

theorem hollow_clearAll (as : List Address) : ∀ cells : Array Cell,
    (clearAll cells as).map hollow = cells.map hollow := by
  induction as with
  | nil => exact fun _ => rfl
  | cons a rest ih =>
    intro cells
    rw [clearAll, List.foldl_cons, ← clearAll, ih]
    exact map_modify_eq (hollow_clear · a.place) cells a.offset

end Cell

namespace Table

/-- A slot that a mark may empty: a collectable object reports it, and it leads to one that was killed. -/
def Severable (s : Schema) (t : Table) (x : Site) : Prop :=
  t.isPermanent x.object = false ∧ ∃ o k g, t.get? x.object = some o ∧ s.Reports o x.address k ∧
    o.slot? x.address = some (some g) ∧ ¬ t.Tenable g

/-- A slot is left as it is, or it may be emptied and is, and its object stands alone from then on. -/
def Severs (s : Schema) (t t' : Table) : Prop :=
  ∀ x, t'.slotAt? x = t.slotAt? x ∨
    t'.slotAt? x = some none ∧ t.Severable s x ∧ t'.Lone x.object

variable {s : Schema} {t t' t'' : Table} {x : Site} {g : Handle}

theorem has_pendingKill_of_not_tenable (hg : ¬ t.Tenable g) : t.has g .pendingKill = true := by
  rw [← Bool.not_eq_false]
  exact fun hk => hg (.inr hk)

theorem tenable_congr (hb : t'.boundary = t.boundary)
    (hk : t'.has g .pendingKill = t.has g .pendingKill) : t'.Tenable g ↔ t.Tenable g := by
  rw [Tenable, Tenable, isPermanent, isPermanent, hb, hk]

/-- Where the same slots hold the same, nothing is emptied. -/
theorem Severs.of_slots {R : Handle → Object → Object → Prop} (e : t.Evolves R t')
    (hr : ∀ h o o', R h o o' → ∀ a, o'.slot? a = o.slot? a) : t.Severs s t' := by
  intro ⟨h, a⟩
  left
  cases ho : t.get? h with
  | none => simp [slotAt?, ho, e.gone h ho]
  | some o =>
    obtain ⟨o', ho', hR⟩ := e.kept h o ho
    rw [slotAt?_eq ho, slotAt?_eq ho', hr h o o' hR a]

/-- What may be emptied after the table was changed might have been before. -/
theorem Severable.back {R : Handle → Object → Object → Prop} {dead : Handle → Prop}
    (hs : s.Regular) (hfit : ∀ h o, t.get? h = some o → s.Fits o) (e : t.Evolves R t')
    (hr : ∀ h o o', R h o o' → o.Thins s dead o')
    (hkill : ∀ g, t'.has g .pendingKill = t.has g .pendingKill)
    (hx : t'.Severable s x) : t.Severable s x := by
  obtain ⟨hp, o', k, g, ho', hrep, hslot, hten⟩ := hx
  obtain ⟨o, ho, hR⟩ := e.back ho'
  have hthin := hr _ o o' hR
  exact ⟨(e.isPermanent _).symm.trans hp, o, k, g, ho,
    hthin.reports_back hs (hfit _ o ho) hrep hslot, hthin.slot_back hslot,
    mt (tenable_congr e.boundary (hkill g)).mpr hten⟩

theorem Severs.trans {R : Handle → Object → Object → Prop} {dead : Handle → Prop}
    (hs : s.Regular) (hfit : ∀ h o, t.get? h = some o → s.Fits o) (e : t.Evolves R t')
    (hr : ∀ h o o', R h o o' → o.Thins s dead o')
    (hkill : ∀ g, t'.has g .pendingKill = t.has g .pendingKill)
    (hlone : ∀ h, t'.Lone h → t''.Lone h) (a : t.Severs s t') (b : t'.Severs s t'') :
    t.Severs s t'' := by
  intro x
  rcases b x with hsame | ⟨hnone, hx, hl⟩
  · rw [hsame]
    exact (a x).imp_right fun ⟨hnone, hx, hl⟩ => ⟨hnone, hx, hlone _ hl⟩
  · exact .inr ⟨hnone, hx.back hs hfit e hr hkill, hl⟩

end Table

section

variable {s : Schema} {keeping : Bool} {good : Handle → Prop} {t t' : Table} {cs cs' : Clusters}

theorem Retains.severs_trans {t'' : Table} {cs'' : Clusters} (ho : Orderly s t cs)
    (r : Retains s t cs t' cs') (r' : Retains s t' cs' t'' cs'') (a : t.Severs s t')
    (b : t'.Severs s t'') : t.Severs s t'' :=
  a.trans ho.regular ho.fits r.outlasts (fun _ _ _ hr => hr.1.toThins)
    r.outlasts.has_pendingKill r'.lone b

/-- A trace keeps to the slots that may be emptied. -/
theorem Tracer.Flooded.severs {tr : Tracer} {walks front gray : Handle → Prop} {weak : Site → Prop}
    {wave : List Handle} {tally tally' : Tally}
    (p : Tracing tr.schema tr.clusters tr.memberKeepsCluster good gray weak t)
    (hfront : ∀ h, front h → t.isPermanent h = false)
    (b : Flooded tr good (tr.scope t walks front) wave t tally t' tally') :
    t.Severs tr.schema t' := by
  intro ⟨h, a⟩
  cases ho : t.get? h with
  | none => simp [Table.slotAt?, ho, b.struck.objects.gone h ho]
  | some o =>
    obtain ⟨o', ho', hs⟩ := b.struck.objects.kept h o ho
    rw [Table.slotAt?_eq ho, Table.slotAt?_eq ho']
    rcases hs.slots a with hsame | ⟨hcut, hnone⟩
    · exact .inl hsame
    · obtain ⟨hhit, -, q, k, g, hq, hown, hroot, hrep, hslot, hten⟩ := hcut
      have hqo : q = o := Option.some.inj (hq.symm.trans ho)
      subst hqo
      exact .inr ⟨hnone, ⟨Tracer.hits_collectable p hfront hhit, q, k, g, hq, hrep, hslot, hten⟩,
        o', ho', hs.owner.trans hown, (hs.has (by decide)).trans hroot⟩

/-- Dissolving clusters empties no slot. -/
theorem Clusters.Scattered.severs {weak : Site → Prop} {gone : List Handle}
    {found : List Handle × Table × Clusters} (b : Scattered s keeping good weak t cs gone found) :
    t.Severs s found.2.1 := by
  refine .of_slots b.table fun h o o' he a => ?_
  have hthin : o.Thins s (fun _ => False) o' := he ▸ Object.thins_fate
  exact (hthin.slot a).resolve_right fun ⟨_, _, hf, _⟩ => hf

theorem Turned.severs {frontier roots survivors : List Handle} {tally tally₁ : Tally}
    {t₁ t₂ : Table} {cs₁ cs₂ : Clusters} {weak : Site → Prop}
    (p : Tracing s cs keeping good (· ∈ frontier) weak t) (same : cs.Alike cs₁)
    (b : Turned s keeping good frontier t cs tally t₁ cs₁ tally₁ roots survivors t₂ cs₂) :
    t.Severs s t₂ :=
  b.traced.severs_trans p.orderly b.dissolved
    (b.flooded.severs (p.alike same) fun h hh => (p.queued h hh).1) b.scattered.severs

/-- A mark keeps to the slots that might be emptied when it began. The induction is on the turns. -/
theorem MarksRounds.severs {frontier : List Handle} {st r : Stand}
    (run : MarksRounds s keeping frontier st r)
    (p : Tracing s st.clusters keeping good (· ∈ frontier) (· ∈ st.tally.weak) st.table) :
    st.table.Severs s r.table := by
  induction run with
  | last same floods order scatters =>
    exact (Turned.intro p same floods order scatters).severs p same
  | next same floods order scatters some others ih =>
    have b := Turned.intro p same floods order scatters
    exact b.retains.severs_trans p.orderly (others.rounded b.scattered.tracing).retains
      (b.severs p same) (ih b.scattered.tracing)

end

/-- What a collection does to an object that survives it; `t` and `t'` are the tables before and after. -/
structure Object.Survives (s : Schema) (t t' : Table) (o o' : Object) : Prop extends o.Same o' where
  /-- The flags stay, but for the four that tell what the collection has found. -/
  flags : o'.flags.remove .findings = o.flags.remove .findings
  /-- The values stay, and so do the shapes of arrays and containers. -/
  shape : o'.cells.map Cell.hollow = o.cells.map Cell.hollow
  /-- A slot is left as it is, or emptied. -/
  slot : ∀ a, o'.slot? a = o.slot? a ∨ o'.slot? a = some none
  /-- A reference to a survivor that was not killed stays. -/
  kept : ∀ a g, o.slot? a = some (some g) → t'.Awake g → t.has g .pendingKill = false →
    o'.slot? a = some (some g)
  /-- A reference that is not reported as weak is lost only if its target was killed. -/
  strong : ∀ a g, o.slot? a = some (some g) → ¬ s.Reports o a .weak → o'.slot? a = some none →
    t.has g .pendingKill = true
  /-- A slot that is not reported is left alone. -/
  silent : ∀ a, (∀ k, ¬ s.Reports o a k) → o'.slot? a = o.slot? a
  /-- A weak reference is lost if its target is gone, or ends up flagged. -/
  weak : ∀ a g, s.Reports o a .weak → o.slot? a = some (some g) → ¬ t'.Awake g →
    o'.slot? a = some none

namespace Collector

variable {c d : Collector} {keep : Flags} {stats : Statistics} {h : Handle} {o o' : Object}

namespace Search

variable {seeds roots : List Handle} {t₀ t₁ t₂ : Table} {r : Stand} {cs₁ : Clusters} {cleared : Nat}
  (a : c.Search keep seeds t₀ r roots t₁ cs₁ cleared t₂)
include a

/-- From the seeded table to the verdict. -/
theorem retained : Retains c.schema t₀ c.clusters t₁ cs₁ := a.rounded.retains.trans a.retains

/-- Up to the verdict, objects have lost no more than references. -/
theorem thins : c.table.Evolves (fun _ o o' => o.Thins c.schema (fun _ => True) o') t₁ := by
  refine a.sown.trans a.retained.outlasts fun h o p q _ hp hq => ?_
  have hsown : o.Thins c.schema (fun _ => True) p := hp.thins
  exact hsown.trans hq.1.toThins fun _ _ => trivial

theorem has_pendingKill (g : Handle) : t₁.has g .pendingKill = c.table.has g .pendingKill :=
  (a.retained.outlasts.has_pendingKill g).trans (a.toPlanted.has (by decide) (by decide) (by decide) g)

/-- Up to the verdict, an object has kept all flags but those that tell what was found. -/
theorem rest {o₁ : Object} (ho : c.table.get? h = some o) (ho₁ : t₁.get? h = some o₁) :
    o₁.flags.remove .findings = o.flags.remove .findings := by
  obtain ⟨p, hp, hsown⟩ := a.sown.kept h o ho
  rw [a.retained.rest h p o₁ hp ho₁]
  rcases hsown.cases with rfl | rfl
  · rfl
  · exact Flags.remove_findings (o.remove_marks_seeded _)

/-- What is not flagged in the end was not flagged before. -/
theorem awake_back (ha : t₂.Awake h) : c.table.Awake h := by
  obtain ⟨o₁, ho₁, hu⟩ := a.nulls.drops.awake_back ha
  obtain ⟨p, hp, hlater⟩ := a.retained.outlasts.back ho₁
  obtain ⟨o, ho, hsown⟩ := a.sown.back hp
  cases hperm : c.table.isPermanent h with
  | false => exact ⟨o, ho, a.fresh h o ho hperm⟩
  | true =>
    have hsame : o₁ = o := (hlater.2 ((a.sown.isPermanent h).trans hperm)).trans (hsown.permanent hperm)
    exact ⟨o, ho, hsame ▸ hu⟩

variable (hc : c.Sound) (run : MarksRounds c.schema c.settings.memberKeepsCluster seeds
  ⟨t₀, c.clusters, .empty, 0⟩ r)
include hc run

/-- Up to the verdict, only slots have been emptied that might be when the search began. -/
theorem severs : c.table.Severs c.schema t₁ := by
  have ho := hc.settled.orderly
  have hlater : t₀.Severs c.schema t₁ :=
    a.rounded.retains.severs_trans a.tracing.orderly a.retains (run.severs a.tracing)
      a.scattered.severs
  have hsown : c.table.Severs c.schema t₀ := .of_slots a.sown fun h o o' he x => by
    rw [Object.slot?, Object.slot?, he.cells]
  have hthins : ∀ h o o', c.table.SeededAs (keep.union Flags.keep) h o o' →
      o.Thins c.schema (fun _ => False) o' := fun _ _ _ he => he.thins
  exact hsown.trans ho.regular ho.fits a.sown hthins
    (a.toPlanted.has (by decide) (by decide) (by decide)) a.retained.lone hlater

/-- The search empties a slot only if the slot is reported, and its target was killed, or it is weak and
its target is found dead. -/
theorem slot (ho : c.table.get? h = some o) (ho' : t₂.get? h = some o') (x : Address) :
    o'.slot? x = o.slot? x ∨ o'.slot? x = some none ∧ ∃ k g, c.schema.Reports o x k ∧
      o.slot? x = some (some g) ∧ (c.table.has g .pendingKill = true ∨ k = .weak ∧ ¬ t₂.Awake g) := by
  obtain ⟨o₁, ho₁, hthin, -⟩ := a.nulls.drops.back ho'
  have hfirst := a.severs hc run ⟨h, x⟩
  rw [Table.slotAt?_eq ho, Table.slotAt?_eq ho₁] at hfirst
  rcases hthin.slot x with hsame | ⟨g, hslot, hu, hnone⟩
  · rw [hsame]
    refine hfirst.imp_right fun ⟨hnone, ⟨_, p, k, g, hp, hrep, hslot, hten⟩, _⟩ => ⟨hnone, k, g, ?_⟩
    have hpo : p = o := Option.some.inj (hp.symm.trans ho)
    subst hpo
    exact ⟨hrep, hslot, .inl (Table.has_pendingKill_of_not_tenable hten)⟩
  · -- the slot held its reference until the verdict, and then was stale
    have hstale := a.nulls.within ⟨h, x⟩ g ((Table.slotAt?_eq ho₁).trans hslot)
      ((Table.slotAt?_eq ho').trans hnone)
    obtain ⟨-, p, g', hp, hrep, -, -⟩ := hstale
    have hpo : p = o₁ := Option.some.inj (hp.symm.trans ho₁)
    subst hpo
    have hback := a.thins.of_some ho ho₁
    have hs := hc.settled.orderly
    refine .inr ⟨hnone, .weak, g, hback.reports_back hs.regular (hs.fits h o ho) hrep hslot,
      hback.slot_back hslot, .inr ⟨rfl, fun hawake => ?_⟩⟩
    rw [(a.nulls.drops.awake_back hawake).isUnreachable] at hu
    cases hu

/-- What a search does to an object that it does not leave flagged. -/
theorem survives (ho' : t₂.get? h = some o') (hu : o'.isUnreachable = false) :
    ∃ o, c.table.get? h = some o ∧ o.Survives c.schema c.table t₂ o' := by
  have hs := hc.settled.orderly
  obtain ⟨o₁, ho₁, hthin, -, hflags⟩ := a.nulls.drops.back ho'
  obtain ⟨o, ho, hback⟩ := a.thins.back ho₁
  have hall : o.Thins c.schema (fun _ => True) o' := hback.trans hthin fun _ _ => trivial
  have hslot := a.slot hc run ho ho'
  refine ⟨o, ho, { hall.toSame with
    flags := ?flags, shape := ?shape, slot := fun x => (hslot x).imp_right (·.1), kept := ?kept,
    strong := ?strong, silent := ?silent, weak := ?weak }⟩
  case flags => exact (congrArg (Flags.remove · .findings) hflags).trans (a.rest ho ho₁)
  case shape =>
    obtain ⟨as, has⟩ := hall.emptied
    rw [has, Cell.hollow_clearAll]
  case kept =>
    intro x g hx hg hk
    refine ((hslot x).resolve_right ?_).trans hx
    rintro ⟨-, k, g', -, hx', hwhy⟩
    cases hx.symm.trans hx'
    rcases hwhy with hkill | ⟨-, hdead⟩
    · rw [hk] at hkill
      cases hkill
    · exact hdead hg
  case strong =>
    intro x g hx hrep hnone
    rcases hslot x with hsame | ⟨-, k, g', hrep', hx', hwhy⟩
    · rw [hnone, hx] at hsame
      cases hsame
    · cases hx.symm.trans hx'
      refine hwhy.resolve_right fun ⟨hk, _⟩ => hrep ?_
      rwa [← hk]
  case silent =>
    intro x hrep
    refine (hslot x).resolve_right ?_
    rintro ⟨-, k, -, hrep', -⟩
    exact hrep k hrep'
  case weak =>
    intro x g hrep hx hg
    refine ((hslot x).resolve_left fun hsame => hg ?_).1
    rw [hx] at hsame
    have hedge : Edge c.schema t₂ h .weak g :=
      ⟨o', x, ho', hall.reports_stays hs.regular (hs.fits h o ho) hrep hsame, hsame⟩
    exact a.settled.linked h .weak g hedge ⟨o', ho', hu⟩ (.inl rfl)

end Search

/-- What a reply says of the call, if it reports a collection or a part of a purge. -/
def Told (c d : Collector) : Reply → Prop
  | .collected stats => ∃ lock misses keep full,
      (c.relocked lock misses).collect keep full = .ok (stats, d)
  | .purged progress => ∃ deadline, c.runPurge deadline = .ok (progress, d)
  | _ => True

theorem told_of_reply {α : Type} {f : α → Reply} {o : Outcome α} {reply : Reply}
    (hok : Collector.reply f o = .ok (reply, d)) (hf : ∀ a, c.Told d (f a)) : c.Told d reply := by
  rcases o with _ | ⟨_ | a, e⟩
  · cases hok
  · cases hok
    trivial
  · cases hok
    exact hf a

/-- Where nobody keeps collections off, a call for a collection collects. -/
theorem perform_collect {full : Bool} (hheld : c.isHeld = false)
    (hok : c.collect keep full = .ok (stats, d)) :
    c.perform (.collect keep full) = .ok (.collected stats, d) := by
  simp only [perform, hheld, Bool.false_eq_true, if_false, hok]
  rfl

/-- A call for a collection collects, or is put off by those who keep collections off. -/
theorem collect_of_perform {op : Operation} {full : Bool} {reply : Reply}
    (hop : op = .collect keep full ∨ op = .tryCollect keep full)
    (hok : c.perform op = .ok (reply, d)) :
    (∃ stats lock misses, reply = .collected stats ∧
      (c.relocked lock misses).collect keep full = .ok (stats, d)) ∨
        reply = .wouldBlock ∨ reply = .missed := by
  rcases hop with rfl | rfl
  · unfold perform at hok
    dsimp only at hok
    split at hok
    · cases hok
      exact .inr (.inl rfl)
    · obtain ⟨found, hfound, hok⟩ := except_bind_ok hok
      cases hok
      exact .inl ⟨found.1, c.lock, c.misses, rfl, hfound⟩
  · obtain ⟨⟨stats?, e⟩, hfound, hok⟩ := except_bind_ok hok
    unfold tryCollect at hfound
    split at hfound
    · obtain ⟨found, hcollect, hfound⟩ := except_bind_ok hfound
      cases hfound
      cases hok
      exact .inl ⟨found.1, c.lock, c.misses, rfl, hcollect⟩
    · dsimp only at hfound
      split at hfound
      · obtain ⟨found, hcollect, hfound⟩ := except_bind_ok hfound
        cases hfound
        cases hok
        exact .inl ⟨found.1, .free, c.misses + 1, rfl, hcollect⟩
      · cases hfound
        cases hok
        exact .inr (.inr rfl)

/-- A call that reports a collection has collected, and one that reports what it has purged has carried
the purge on. -/
theorem told_of_perform {op : Operation} {reply : Reply} (hok : c.perform op = .ok (reply, d)) :
    c.Told d reply := by
  cases op with
  | collect keep full =>
    rcases collect_of_perform (.inl rfl) hok with ⟨_, lock, misses, rfl, hcollect⟩ | rfl | rfl
    · exact ⟨lock, misses, keep, full, hcollect⟩
    all_goals trivial
  | tryCollect keep full =>
    rcases collect_of_perform (.inr rfl) hok with ⟨_, lock, misses, rfl, hcollect⟩ | rfl | rfl
    · exact ⟨lock, misses, keep, full, hcollect⟩
    all_goals trivial
  | purge deadline =>
    obtain ⟨⟨progress, e⟩, hpurge, hok⟩ := except_bind_ok hok
    cases hok
    exact ⟨deadline, hpurge⟩
  | shutdown =>
    unfold perform at hok
    dsimp only at hok
    split at hok
    · cases hok
      trivial
    · obtain ⟨e, -, hok⟩ := except_bind_ok hok
      cases hok
      trivial
  | registerClass | createObject | setReference | pushReference | putCell | revise | formCluster =>
    exact told_of_reply hok fun _ => trivial
  | setFlags | clearFlags | addRoot | removeRoot | kill =>
    exact told_of_reply (f := fun _ => .done) (o := .ok (_, _)) hok fun _ => trivial
  | closePermanentPool | hold | letGo | setGate | drain =>
    cases hok
    trivial

end Collector

end TracingHeap
