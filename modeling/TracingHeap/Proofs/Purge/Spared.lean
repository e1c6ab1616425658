import TracingHeap.Proofs.Outcome
import TracingHeap.Proofs.Cluster.Enrollment
import TracingHeap.Purge.Run

namespace TracingHeap

structure Object.Wanes (o o' : Object) : Prop extends o.Same o' where
  cells : o'.cells = o.cells
  owner : o'.owner = o.owner
  flag : ∀ f, f ≠ .beginDestroyed → f ≠ .finishDestroyed → o'.has f = o.has f

namespace Object.Wanes

variable {o p q : Object}

theorem refl (o : Object) : o.Wanes o := ⟨⟨rfl, rfl, rfl⟩, rfl, rfl, fun _ _ _ => rfl⟩

theorem trans (h : o.Wanes p) (h' : p.Wanes q) : o.Wanes q := by
  refine ⟨⟨h'.handle.trans h.handle, h'.classId.trans h.classId, h'.name.trans h.name⟩,
    h'.cells.trans h.cells, h'.owner.trans h.owner, fun f h1 h2 => ?_⟩
  rw [h'.flag f h1 h2, h.flag f h1 h2]

theorem set (o : Object) {f : Flag} (hf : f = .beginDestroyed ∨ f = .finishDestroyed) :
    o.Wanes (o.set f) := by
  refine ⟨⟨rfl, rfl, rfl⟩, rfl, rfl, fun g h1 h2 => ?_⟩
  rcases hf with he | he
  · simp [he, Ne.symm h1]
  · simp [he, Ne.symm h2]

theorem isUnreachable (h : o.Wanes p) : p.isUnreachable = o.isUnreachable :=
  h.flag .unreachable (by decide) (by decide)

end Object.Wanes

namespace Table

structure Spares (t t' : Table) : Prop where
  boundary : t'.boundary = t.boundary
  tidy : t'.Tidy
  back : ∀ h o', t'.get? h = some o' → ∃ o, t.get? h = some o ∧ o.Wanes o'
  same : ∀ h o, t.get? h = some o → o.isUnreachable = false → t'.get? h = some o
  pooled : ∀ h, t.isPermanent h = true → t'.contains h = t.contains h

namespace Spares

variable {t t' t'' : Table} {h : Handle} {o : Object}

theorem refl (ht : t.Tidy) : t.Spares t :=
  ⟨rfl, ht, fun _ o' ho' => ⟨o', ho', .refl o'⟩, fun _ _ ho _ => ho, fun _ _ => rfl⟩

theorem trans (a : t.Spares t') (b : t'.Spares t'') : t.Spares t'' := by
  refine ⟨b.boundary.trans a.boundary, b.tidy, ?_, ?_, ?_⟩
  · intro h q hq
    obtain ⟨p, hp, hpq⟩ := b.back h q hq
    obtain ⟨o, ho, hop⟩ := a.back h p hp
    exact ⟨o, ho, hop.trans hpq⟩
  · intro h o ho hu
    exact b.same h o (a.same h o ho hu) hu
  · intro h hp
    have hp' : t'.isPermanent h = true := by rwa [Table.isPermanent, a.boundary]
    rw [b.pooled h hp', a.pooled h hp]

theorem isPermanent (a : t.Spares t') (h : Handle) : t'.isPermanent h = t.isPermanent h := by
  simp [Table.isPermanent, a.boundary]

theorem awake (a : t.Spares t') (ha : t.Awake h) : t'.Awake h := by
  obtain ⟨o, ho, hu⟩ := ha
  exact ⟨o, a.same h o ho hu, hu⟩

theorem awake_back (a : t.Spares t') (ha : t'.Awake h) : t.Awake h := by
  obtain ⟨o', ho', hu⟩ := ha
  obtain ⟨o, ho, hw⟩ := a.back h o' ho'
  exact ⟨o, ho, hw.isUnreachable.symm.trans hu⟩

/-- An object that is not flagged is found as it was. -/
theorem get?_eq (a : t.Spares t') (ha : t.Awake h) : t'.get? h = t.get? h := by
  obtain ⟨o, ho, hu⟩ := ha
  rw [ho, a.same h o ho hu]

/-- Telling how far the destruction of a flagged object has come. -/
theorem setFlag (ht : t.Tidy) (hu : t.isUnreachable h = true) {f : Flag}
    (hf : f = .beginDestroyed ∨ f = .finishDestroyed) : t.Spares (t.setFlag h f) := by
  refine ⟨rfl, ht.setFlag h f, ?_, ?_, fun g _ => contains_setFlag t h g f⟩
  · intro g o' ho'
    rw [Table.setFlag, get?_modify] at ho'
    split at ho'
    · obtain ⟨o, ho, he⟩ := Option.map_eq_some_iff.mp ho'
      exact ⟨o, ho, he ▸ .set o hf⟩
    · exact ⟨o', ho', .refl o'⟩
  · intro g o ho hg
    rw [Table.setFlag, get?_modify, if_neg, ho]
    intro he
    rw [← he, isUnreachable_of_get? ho, hg] at hu
    cases hu

/-- Freeing a flagged object. -/
theorem release (ht : t.Tidy) (ho : t.get? h = some o) (hu : o.isUnreachable = true) :
    t.Spares (t.release h) := by
  refine ⟨boundary_release t h, ht.release h, fun g o' ho' => ?_, fun g q hq hg => ?_, fun g hg => ?_⟩
  · rw [get?_release] at ho'
    split at ho'
    · cases ho'
    · exact ⟨o', ho', .refl o'⟩
  · rw [get?_release, if_neg, hq]
    rintro ⟨rfl, -⟩
    rw [ho] at hq
    cases hq
    rw [hu] at hg
    cases hg
  · rw [contains, get?_release, if_neg, contains]
    rintro ⟨rfl, hp⟩
    rw [hg] at hp
    cases hp

end Spares

end Table

theorem mem_of_mem_swapRemove {a : Array Handle} {i : Nat} {h : Handle}
    (hm : h ∈ swapRemove a i) : h ∈ a := by
  unfold swapRemove at hm
  obtain ⟨k, hk, he⟩ := Array.mem_iff_getElem.mp hm
  rw [Array.getElem_pop, Array.getElem_swapIfInBounds] at he
  grind

namespace Routing

def Waits (r : Routing) : Prop := ∀ h ∈ r.parked, r.table.isUnreachable h = true

/-- What the first phase may do: it frees nothing, and what it parks is flagged. -/
structure Routes (r r' : Routing) : Prop where
  spares : r.table.Spares r'.table
  flagged : ∀ h, r.table.isUnreachable h = true → r'.table.isUnreachable h = true
  waits : r'.Waits

variable {s : Schema} {r r' r'' : Routing}

theorem Routes.refl (ht : r.table.Tidy) (hw : r.Waits) : r.Routes r :=
  ⟨.refl ht, fun _ hu => hu, hw⟩

theorem Routes.trans (a : r.Routes r') (b : r'.Routes r'') : r.Routes r'' :=
  ⟨a.spares.trans b.spares, fun h hu => b.flagged h (a.flagged h hu), b.waits⟩

/-- Where the cursor and the clock stand does not matter. -/
theorem Routes.moved (a : r.Routes r') (ht : r''.table = r'.table)
    (hp : r''.parked = r'.parked) : r.Routes r'' := by
  refine ⟨ht ▸ a.spares, fun h hu => ht ▸ a.flagged h hu, fun h hh => ?_⟩
  rw [ht]
  exact a.waits h (hp ▸ hh)

/-- A step that tells how far the destruction of an object has come, and may change the list of
parked objects. -/
theorem Routes.setFlag (ht : r.table.Tidy) (hw : r.Waits) {h : Handle}
    (hu : r.table.isUnreachable h = true) {f : Flag}
    (hf : f = .beginDestroyed ∨ f = .finishDestroyed) (htable : r'.table = r.table.setFlag h f)
    (hparked : ∀ g ∈ r'.parked, g ∈ r.parked ∨ g = h) : r.Routes r' := by
  have hflagged : ∀ g, r.table.isUnreachable g = true → r'.table.isUnreachable g = true := by
    intro g hg
    cases ho : r.table.get? g with
    | none => simp [Table.isUnreachable, Table.has, ho] at hg
    | some o =>
      rw [Table.isUnreachable_of_get? ho] at hg
      rw [htable, Table.isUnreachable, Table.has, Table.setFlag, Table.get?_modify, ho]
      split
      · rename_i q hq
        split at hq
        · cases hq
          simp only [Object.isUnreachable] at hg
          simp [hg]
        · cases hq
          exact hg
      · rename_i hq
        split at hq <;> cases hq
  refine ⟨htable ▸ .setFlag ht hu hf, hflagged, fun g hg => ?_⟩
  rcases hparked g hg with hg | he
  · exact hflagged g (hw g hg)
  · rw [he]
    exact hflagged h hu

theorem begin_routes (ht : r.table.Tidy) (hw : r.Waits) {o : Object}
    (hu : r.table.isUnreachable o.handle = true) (l : Lifecycle) : r.Routes (r.begin o l) := by
  unfold begin
  split
  · exact .refl ht hw
  · exact .setFlag ht hw hu (.inl rfl) rfl fun g hg => .inl hg

theorem finish_routes (ht : r.table.Tidy) (hw : r.Waits) {o : Object}
    (hu : r.table.isUnreachable o.handle = true) (l : Lifecycle) : r.Routes (r.finish o l) := by
  unfold finish
  split
  · exact .refl ht hw
  · exact .setFlag ht hw hu (.inr rfl) rfl fun g hg => .inl hg

theorem ask_routes (ht : r.table.Tidy) (hw : r.Waits) (o : Object) (l : Lifecycle) :
    r.Routes (r.ask o l).2 := by
  unfold ask
  split
  · exact .refl ht hw
  · exact ⟨.refl ht, fun _ hu => hu, hw⟩

theorem destroy_routes (ht : r.table.Tidy) (hw : r.Waits) {o : Object}
    (hu : r.table.isUnreachable o.handle = true) :
    Ends Fault.Corrupt (r.destroy s o) (r.Routes ·) := by
  unfold destroy
  split
  · intro hf
    obtain ⟨_, _, _, he⟩ := hf
    cases he
  · have hbegun := begin_routes ht hw hu (s.lifecycle o.classId)
    have hasked := hbegun.trans (ask_routes hbegun.spares.tidy hbegun.waits o
      (s.lifecycle o.classId))
    cases hask : (r.begin o (s.lifecycle o.classId)).ask o (s.lifecycle o.classId) with
    | mk ready asked =>
      rw [hask] at hasked
      simp only [hask]
      have hu' := hasked.flagged _ hu
      cases ready with
      | true => exact hasked.trans (finish_routes hasked.spares.tidy hasked.waits hu' _)
      | false =>
        refine hasked.trans ⟨.refl hasked.spares.tidy, fun _ hg => hg, fun g hg => ?_⟩
        rcases Array.mem_push.mp hg with hg | he
        · exact hasked.waits g hg
        · rw [he]
          exact hu'

theorem step_routes (ht : r.table.Tidy) (hw : r.Waits) :
    Ends Fault.Corrupt (r.step s) (r.Routes ·) := by
  unfold step
  dsimp only
  split
  · rename_i o hslot
    split
    · rename_i hu
      have ho : r.table.get? o.handle = some o := by
        rw [Table.get?, ht.placed _ o hslot]
        exact hslot
      apply (destroy_routes ht hw ((Table.isUnreachable_of_get? ho).trans hu)).bind
      intro r' _ hr'
      exact hr'.moved rfl rfl
    · exact (Routes.refl ht hw).moved rfl rfl
  · exact (Routes.refl ht hw).moved rfl rfl

theorem walk_routes (deadline : Option Deadline) (left : Nat) : ∀ (seen : Nat) (r : Routing),
    r.table.Tidy → r.Waits → Ends Fault.Corrupt (walk s deadline left seen r) (r.Routes ·.2) := by
  induction left with
  | zero =>
    intro seen r ht hw
    rw [walk]
    exact .refl ht hw
  | succ left ih =>
    intro seen r ht hw
    rw [walk]
    apply (step_routes ht hw).bind
    intro r' _ hr'
    have hlooked : r.Routes { r' with looks := r'.looks + 1 } := hr'.moved rfl rfl
    dsimp only
    split
    · split
      · exact hlooked
      · apply (ih (seen + 1) _ hlooked.spares.tidy hlooked.waits).mono
        intro found hfound
        exact hlooked.trans hfound
    · apply (ih (seen + 1) r' hr'.spares.tidy hr'.waits).mono
      intro found hfound
      exact hr'.trans hfound

/-- A parked object that is taken off the list was flagged, so nothing else is told that it has been
destroyed. -/
theorem retry_routes (ht : r.table.Tidy) (hw : r.Waits) (i : Nat) : r.Routes (retry s r i).2 := by
  have hremove : ∀ {q : Routing}, r.Routes q → q.parked = r.parked →
      r.Routes { q with parked := swapRemove q.parked i } := by
    intro q hq hparked
    refine ⟨hq.spares, hq.flagged, fun g hg => hq.waits g ?_⟩
    exact mem_of_mem_swapRemove hg
  unfold retry
  split
  · exact .refl ht hw
  · rename_i h hparked
    split
    · exact hremove (.refl ht hw) rfl
    · rename_i o ho
      have hu : r.table.isUnreachable o.handle = true := by
        rw [ht.handle_eq ho]
        exact hw h (Array.mem_of_getElem? hparked)
      have hasked := ask_routes ht hw o (s.lifecycle o.classId)
      have hsame : (r.ask o (s.lifecycle o.classId)).2.parked = r.parked := by
        unfold ask
        split <;> rfl
      cases hask : r.ask o (s.lifecycle o.classId) with
      | mk ready asked =>
        rw [hask] at hasked hsame
        simp only [hask]
        cases ready with
        | false => exact hasked
        | true =>
          apply hremove
          · exact hasked.trans (finish_routes hasked.spares.tidy hasked.waits
              (hasked.flagged _ hu) _)
          · rw [← hsame]
            unfold finish
            split <;> rfl

theorem retryFrom_routes (deadline : Option Deadline) (left : Nat) :
    ∀ (seen i : Nat) (r : Routing), r.table.Tidy → r.Waits →
      r.Routes (retryFrom s deadline left seen i r).2 := by
  induction left with
  | zero =>
    intro seen i r ht hw
    rw [retryFrom]
    exact .refl ht hw
  | succ left ih =>
    intro seen i r ht hw
    have hnext := retry_routes (s := s) ht hw i
    have hlooked : r.Routes { (retry s r i).2 with looks := (retry s r i).2.looks + 1 } :=
      hnext.moved rfl rfl
    rw [retryFrom]
    dsimp only
    split
    · split
      · exact hlooked
      · exact hlooked.trans (ih (seen + 1) _ _ hlooked.spares.tidy hlooked.waits)
    · exact hnext.trans (ih (seen + 1) _ _ hnext.spares.tidy hnext.waits)

theorem retryAll_routes (n : Nat) : ∀ r : Routing, r.table.Tidy → r.Waits →
    Ends Fault.Corrupt (retryAll s n r) (r.Routes ·) := by
  induction n with
  | zero =>
    intro r ht hw
    rw [retryAll]
    split
    · exact .refl ht hw
    · intro hf
      obtain ⟨_, _, _, he⟩ := hf
      cases he
  | succ n ih =>
    intro r ht hw
    rw [retryAll]
    split
    · exact .refl ht hw
    · have hpass : r.Routes (r.retryPass s none).2 := retryFrom_routes none _ 0 0 r ht hw
      apply (ih _ hpass.spares.tidy hpass.waits).mono
      intro r' hr'
      exact hpass.trans hr'

theorem settle_routes (ht : r.table.Tidy) (hw : r.Waits) (deadline : Option Deadline) :
    Ends Fault.Corrupt (r.settle s deadline) (r.Routes ·.2) := by
  unfold settle
  cases deadline with
  | some d => exact retryFrom_routes (some d) _ 0 0 r ht hw
  | none =>
    apply (retryAll_routes (r.patience s) r ht hw).bind
    intro r' _ hr'
    exact hr'

end Routing

namespace Sweep

theorem step_spares {w : Sweep} (ht : w.table.Tidy) :
    Ends Fault.Corrupt w.step fun found => w.table.Spares found.2.table := by
  have hprotocol : ∀ (h : Handle) missing,
      ¬ Fault.Corrupt (.fatal (.purgeProtocol h missing)) := by
    intro h missing hf
    obtain ⟨_, _, _, he⟩ := hf
    cases he
  unfold step
  dsimp only
  split
  · exact .refl ht
  · rename_i o hslot
    have ho : w.table.get? o.handle = some o := by
      rw [Table.get?, ht.placed _ o hslot]
      exact hslot
    split
    · exact .refl ht
    · rename_i hu
      have hu' : o.isUnreachable = true := by simpa using hu
      split
      · exact hprotocol o.handle _
      · split
        · exact hprotocol o.handle _
        · exact .release ht ho hu'

theorem walk_spares (deadline : Option Deadline) (left : Nat) : ∀ w : Sweep, w.table.Tidy →
    Ends Fault.Corrupt (walk deadline left w) fun found => w.table.Spares found.2.table := by
  induction left with
  | zero =>
    intro w ht
    rw [walk]
    exact .refl ht
  | succ left ih =>
    intro w ht
    rw [walk]
    apply (step_spares ht).bind
    intro found _ hfound
    dsimp only
    split
    · split
      · exact hfound
      · apply (ih { found.2 with looks := found.2.looks + 1 } hfound.tidy).mono
        intro found' hfound'
        exact hfound.trans hfound'
    · apply (ih _ hfound.tidy).mono
      intro found' hfound'
      exact hfound.trans hfound'

end Sweep

/-- What a purge keeps in mind between two calls: what is parked is flagged, and nothing is parked
while objects are being freed or when no purge is pending. -/
structure Purge.Waits (p : Purge) (t : Table) : Prop where
  flagged : ∀ h ∈ p.parked, t.isUnreachable h = true
  parked : p.routed = true ∨ p.required = false → p.parked = #[]

namespace PurgeState

/-- Where a pending purge stands between its phases, `t₀` being the table that it started with. -/
structure Pending (t₀ : Table) (p : PurgeState) : Prop where
  spares : t₀.Spares p.table
  waits : p.purge.Waits p.table
  required : p.purge.required = true

variable {s : Schema}

theorem route_spares (deadline : Option Deadline) {purge : Purge} {table : Table}
    (ht : table.Tidy) (hw : ∀ h ∈ purge.parked, table.isUnreachable h = true)
    (hreq : purge.required = true) (hrouted : purge.routed = false) (journal : Journal) :
    Ends Fault.Corrupt (route s deadline purge table journal) fun found =>
      Pending table found.2.2 := by
  have hcut : ∀ {r : Routing}, r.Waits → (ofRouting purge r).purge.Waits r.table := by
    intro r hr
    refine ⟨hr, fun h => ?_⟩
    rcases h with h | h
    · rw [show (ofRouting purge r).purge.routed = purge.routed from rfl, hrouted] at h
      cases h
    · rw [show (ofRouting purge r).purge.required = purge.required from rfl, hreq] at h
      cases h
  unfold route
  apply (Routing.walk_routes (s := s) deadline (table.capacity - purge.cursor) 0
    ⟨table, journal, purge.cursor, purge.parked, 0⟩ ht hw).bind
  intro walked _ hwalked
  dsimp only
  split
  · exact ⟨hwalked.spares, hcut hwalked.waits, hreq⟩
  · apply (Routing.settle_routes hwalked.spares.tidy hwalked.waits deadline).bind
    intro settled _ hsettled
    have hspares := hwalked.spares.trans hsettled.spares
    have hwaits := hcut hsettled.waits
    change Pending table (ofRouting purge settled.2).endRouting
    unfold endRouting
    split
    · rename_i hempty
      exact ⟨hspares, ⟨hwaits.flagged, fun _ => Array.isEmpty_iff.mp hempty⟩, hreq⟩
    · exact ⟨hspares, hwaits, hreq⟩

theorem sweep_spares (deadline : Option Deadline) (looks : Nat) (purge : Purge) {table : Table}
    (ht : table.Tidy) : Ends Fault.Corrupt (sweep deadline looks purge table) fun found =>
      table.Spares found.2.2 ∧ found.2.1.parked = purge.parked := by
  unfold sweep
  apply (Sweep.walk_spares deadline _ ⟨table, (purge.placeCursor table).cursor, 0, looks⟩ ht).bind
  intro found _ hfound
  refine ⟨hfound, ?_⟩
  change (purge.placeCursor table).parked = purge.parked
  unfold Purge.placeCursor
  split <;> rfl

theorem pending_placeCursor {purge : Purge} {table : Table} (journal : Journal) (ht : table.Tidy)
    (hw : purge.Waits table) (hreq : purge.required = true) :
    Pending table ⟨purge.placeCursor table, table, journal⟩ := by
  unfold Purge.placeCursor
  split
  · exact ⟨.refl ht, ⟨hw.flagged, hw.parked⟩, hreq⟩
  · exact ⟨.refl ht, hw, hreq⟩

/-- A purge, cut off or not, spares what is not flagged. -/
theorem run_spares {p : PurgeState} (ht : p.table.Tidy) (hw : p.purge.Waits p.table)
    (deadline : Option Deadline) : Ends Fault.Corrupt (run s deadline p) fun found =>
      p.table.Spares found.2.table ∧ found.2.purge.Waits found.2.table := by
  obtain ⟨purge, table, journal⟩ := p
  unfold run
  dsimp only
  split
  · exact ⟨.refl ht, hw⟩
  · rename_i hreq
    have hplaced := pending_placeCursor journal ht hw (by simpa using hreq)
    have hfirst : Ends Fault.Corrupt
        (if (purge.placeCursor table).routed then
          pure (false, 0, ⟨purge.placeCursor table, table, journal⟩)
        else route s deadline (purge.placeCursor table) table journal)
        fun found => Pending table found.2.2 := by
      split
      · exact hplaced
      · rename_i hrouted
        rw [Bool.not_eq_true] at hrouted
        exact route_spares deadline ht hplaced.waits.flagged hplaced.required hrouted journal
    apply Ends.bind_ite hfirst
    intro found hfound
    split
    · rename_i hsweep
      rw [Bool.and_eq_true] at hsweep
      have hempty := hfound.waits.parked (.inl hsweep.1)
      apply (sweep_spares deadline _ _ hfound.spares.tidy).bind
      intro swept _ hswept
      obtain ⟨hfreed, hparked⟩ := hswept
      rw [hempty] at hparked
      refine ⟨hfound.spares.trans hfreed, ?_⟩
      dsimp only
      split
      · exact ⟨fun h hh => by simp [Purge.reset, hparked] at hh, fun _ => hparked⟩
      · exact ⟨fun h hh => by simp [hparked] at hh, fun _ => hparked⟩
    · exact ⟨hfound.spares, hfound.waits⟩

end PurgeState

end TracingHeap
