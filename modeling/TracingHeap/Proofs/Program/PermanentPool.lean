import TracingHeap.Proofs.Program.Refusal
import TracingHeap.Proofs.Collection.Roots
import TracingHeap.Proofs.Collection.Survivors

namespace TracingHeap

structure Table.Vacates (t t' : Table) : Prop where
  boundary : t'.boundary = t.boundary
  size : t.slots.size ≤ t'.slots.size
  free : ∀ h ∈ t'.free, h ∈ t.free ∨ t.isPermanent h = false

namespace Table.Vacates

variable {t t' t'' : Table}

theorem refl (t : Table) : t.Vacates t := ⟨rfl, Nat.le_refl _, fun _ hh => .inl hh⟩

theorem trans (a : t.Vacates t') (b : t'.Vacates t'') : t.Vacates t'' := by
  refine ⟨b.boundary.trans a.boundary, Nat.le_trans a.size b.size, fun h hh => ?_⟩
  rcases b.free h hh with hh | hp
  · exact a.free h hh
  · rw [isPermanent, a.boundary] at hp
    exact .inr hp

theorem of_frame (f : t.Frame t') (hb : t'.boundary = t.boundary) : t.Vacates t' :=
  ⟨hb, Nat.le_of_eq f.size.symm, fun h hh => .inl (by rwa [f.free] at hh)⟩

theorem modify (t : Table) (h : Handle) (f : Object → Object) : t.Vacates (t.modify h f) :=
  of_frame (.modify t h f) rfl

theorem release (t : Table) (h : Handle) : t.Vacates (t.release h) := by
  refine ⟨by simp, Nat.le_of_eq (capacity_release t h).symm, fun g hg => ?_⟩
  unfold Table.release at hg
  split at hg
  · exact .inl hg
  · rename_i hp
    split at hg
    · rcases List.mem_cons.mp hg with rfl | hg
      · exact .inr (by simpa using hp)
      · exact .inl hg
    · exact .inl hg

theorem allocate (t : Table) (id : ClassId) (name : String) (cells : Array Cell) :
    t.Vacates (t.allocate id name cells).2 := by
  unfold Table.allocate
  split
  · rename_i h rest hfree
    refine ⟨rfl, by simp, fun g hg => .inl ?_⟩
    rw [hfree]
    exact List.mem_cons_of_mem _ hg
  · split <;> exact ⟨rfl, by simp, fun g hg => .inl hg⟩

theorem adopt (c : Cluster) (t : Table) : t.Vacates (c.adopt t) := by
  unfold Cluster.adopt
  refine trans ?_ (.modify _ c.root _)
  generalize c.members = l
  induction l generalizing t with
  | nil => exact .refl t
  | cons h rest ih => exact (modify t h _).trans (ih _)

theorem annotates {among : Handle → Prop} (a : t.Annotates among t') : t.Vacates t' := by
  induction a with
  | refl => exact .refl t
  | tail _ hn ih =>
    obtain ⟨h, o, f, -, -, -, -, rfl⟩ := hn
    exact ih.trans (.modify _ h _)

end Table.Vacates

namespace Sweep

theorem step_vacates {w w' : Sweep} {isFreed : Bool} (hok : w.step = .ok (isFreed, w')) :
    w.table.Vacates w'.table := by
  unfold step at hok
  split at hok
  · cases hok
    exact .refl _
  · repeat' split at hok
    all_goals cases hok
    · exact .refl _
    · exact .release ..

theorem walk_vacates {deadline : Option Deadline} {left : Nat} {w w' : Sweep} {ended : Bool}
    (hok : walk deadline left w = .ok (ended, w')) : w.table.Vacates w'.table := by
  induction left generalizing w with
  | zero =>
    cases hok
    exact .refl _
  | succ left ih =>
    obtain ⟨⟨isFreed, v⟩, hv, hok⟩ := except_bind_ok hok
    have hstep := step_vacates hv
    dsimp only at hok
    split at hok
    · split at hok
      · cases hok
        exact hstep
      · have hrest := ih hok
        exact hstep.trans hrest
    · exact hstep.trans (ih hok)

end Sweep

namespace PurgeState

variable {s : Schema} {p q f : PurgeState} {deadline : Option Deadline}

theorem Routes.vacates (hq : Routes s p q) : p.table.Vacates q.table := by
  rcases hq.cases with ⟨-, rfl⟩ | ⟨-, r, hmoves, hr⟩
  · exact .refl _
  · rw [hr.table]
    exact .annotates hmoves.annotates

theorem secondPhase_vacates {cut ended : Bool} {looks : Nat}
    (hok : q.secondPhase deadline cut looks = .ok (ended, f)) : q.table.Vacates f.table := by
  unfold secondPhase at hok
  split at hok
  · obtain ⟨⟨ended', purge, table⟩, hsweep, hok⟩ := except_bind_ok hok
    obtain ⟨⟨ended'', w⟩, hwalk, hsweep⟩ := except_bind_ok hsweep
    cases hsweep
    cases hok
    exact Sweep.walk_vacates hwalk
  · cases hok
    exact .refl _

/-- A purge frees slots outside the pool only. -/
theorem run_vacates {progress : Progress} (hp : p.purge.Stands p.table)
    (hok : run s deadline p = .ok (progress, f)) : p.table.Vacates f.table := by
  cases hreq : p.purge.required with
  | false =>
    rw [run_idle hreq] at hok
    cases hok
    exact .refl _
  | true =>
    rw [run_eq hreq] at hok
    obtain ⟨⟨cut, looks, q⟩, hfirst, hok⟩ := except_bind_ok hok
    obtain ⟨⟨ended, g⟩, hsecond, hok⟩ := except_bind_ok hok
    have hall := (firstPhase_routes hp hreq hfirst).1.vacates.trans (secondPhase_vacates hsecond)
    cases hok
    cases ended <;> exact hall

end PurgeState

/-- No object of the permanent pool is flagged, and no slot of it is free. -/
structure Table.Sheltered (t : Table) : Prop where
  awake : ∀ h, t.isPermanent h = true → t.isUnreachable h = false
  taken : ∀ h ∈ t.free, t.isPermanent h = false
  within : t.boundary ≤ t.slots.size

namespace Table.Sheltered

variable {t t' : Table}

theorem empty : Table.empty.Sheltered := by
  refine ⟨fun h _ => ?_, by simp [Table.empty], by simp [Table.empty]⟩
  simp [Table.isUnreachable, Table.has, Table.get?_empty]

theorem vacates (ht : t.Sheltered) (a : t.Vacates t')
    (hu : ∀ h, t.isPermanent h = true → t'.isUnreachable h = false) : t'.Sheltered := by
  have hperm : ∀ h, t'.isPermanent h = t.isPermanent h := by
    intro h
    rw [isPermanent, isPermanent, a.boundary]
  refine ⟨fun h hp => hu h ((hperm h).symm.trans hp), fun h hh => ?_, ?_⟩
  · rw [hperm]
    rcases a.free h hh with hh | hp
    · exact ht.taken h hh
    · exact hp
  · rw [a.boundary]
    exact Nat.le_trans ht.within a.size

/-- Closing the pool while nothing outside it is flagged. -/
theorem close (ht : t.Sheltered)
    (hnone : ∀ h o, t.get? h = some o → t.isPermanent h = false → o.isUnreachable = false) :
    t.closePermanentPool.Sheltered := by
  refine ⟨fun h _ => ?_, fun h hh => ?_, Nat.min_le_left ..⟩
  · change t.isUnreachable h = false
    cases hp : t.isPermanent h with
    | true => exact ht.awake h hp
    | false =>
      cases ho : t.get? h with
      | none => simp [isUnreachable, has, ho]
      | some o => exact (isUnreachable_of_get? ho).trans (hnone h o ho hp)
  · have hh := (List.mem_filter.mp hh).2
    exact decide_eq_false (Nat.not_lt.mpr (of_decide_eq_true hh))

end Table.Sheltered

inductive Table.Edits (t : Table) : Table → Prop where
  | same : Edits t t
  | change (h : Handle) (f : Object → Object) : Edits t (t.modify h f)
  | extend (id : ClassId) (name : String) (cells : Array Cell) : Edits t (t.allocate id name cells).2
  | enrol (c : Cluster) : Edits t (c.adopt t)

theorem Table.Edits.vacates {t t' : Table} (e : t.Edits t') : t.Vacates t' := by
  cases e with
  | same => exact .refl t
  | change h f => exact .modify t h f
  | extend id name cells => exact .allocate t id name cells
  | enrol c => exact .adopt c t

namespace Collector

variable {b c d : Collector} {op : Operation} {reply : Reply} {h : Handle} {o : Object} {m : Flags}

theorem setFlags_edits : c.table.Edits (c.setFlags h m).2.table := by
  unfold setFlags
  split
  · exact .same
  · exact .change ..

theorem clearFlags_edits : c.table.Edits (c.clearFlags h m).2.table := by
  unfold clearFlags
  split
  · exact .same
  · exact .change ..

theorem addRoot_edits : c.table.Edits (c.addRoot h).2.table := by
  unfold addRoot
  split
  · exact .same
  · split
    · exact .same
    · exact .change ..

theorem kill_edits : c.table.Edits (c.kill h).2.table := by
  unfold kill
  split
  · exact .same
  · split
    · exact .same
    · exact .change ..

theorem table_of_settle {α β : Type} {made : Except Failure α} {take : α → β × Collector}
    {answer : Except HeapError β} (hok : c.settle made take = .ok (answer, d))
    (htake : ∀ a, (take a).2.table = c.table) : d.table = c.table := by
  unfold settle at hok
  split at hok
  · cases hok
    exact htake _
  · cases hok
    rfl
  · cases hok

theorem record_edits {f : Object → Object} {answer : Except HeapError Unit}
    (hok : ({ c with table := c.table.modify h f } : Collector).record h = .ok (answer, d)) :
    c.table.Edits d.table := by
  unfold record at hok
  rw [table_of_settle hok fun _ => rfl]
  exact .change h f

theorem writeReference_edits {offset : Nat} {target : Slot} {expected : String}
    {answer : Except HeapError Unit}
    (hok : c.writeReference h offset target expected = .ok (answer, d)) :
    c.table.Edits d.table := by
  unfold writeReference at hok
  split at hok
  · cases hok
    exact .same
  · cases hok
    exact .same
  · split at hok
    · dsimp only at hok
      split at hok
      · exact record_edits hok
      · cases hok
        exact .change ..
    · cases hok
      exact .same

theorem revise_edits {f : Array Cell → Array Cell} {answer : Except HeapError Unit}
    (hok : c.revise h f = .ok (answer, d)) : c.table.Edits d.table := by
  unfold revise at hok
  split at hok
  · cases hok
    exact .same
  · exact record_edits (f := fun o => { o with cells := f o.cells }) hok

theorem putCell_edits {offset : Nat} {cell : Cell} {answer : Except HeapError Bool}
    (hok : c.putCell h offset cell = .ok (answer, d)) : c.table.Edits d.table := by
  obtain ⟨done, isThere, hrevised, -⟩ := putCell_ok hok
  exact revise_edits hrevised

theorem createObject_edits {id : ClassId} {name : String} {answer : Except HeapError Handle}
    (hok : c.createObject id name = .ok (answer, d)) : c.table.Edits d.table := by
  unfold createObject at hok
  split at hok
  · cases hok
    exact .same
  · cases hok
  · rename_i cells _
    have hextend : c.table.Edits (c.table.allocate id name cells).2 := .extend id name cells
    dsimp only at hok
    split at hok <;> cases hok <;> exact hextend

theorem formCluster_edits {root : Handle} {members : List Handle} {answer : Except HeapError Unit}
    (hok : c.formCluster root members = .ok (answer, d)) : c.table.Edits d.table := by
  unfold formCluster at hok
  split at hok
  · cases hok
    exact .same
  · cases hok
  · cases hok
    exact .enrol _

theorem perform_edits (hop : op.collects = false) (hne : op ≠ .closePermanentPool)
    (hok : c.perform op = .ok (reply, d)) : c.table.Edits d.table := by
  cases op with
  | closePermanentPool => exact absurd rfl hne
  | collect | tryCollect | purge | shutdown => cases hop
  | registerClass spec =>
    obtain ⟨answer, hok⟩ := reply_ok hok
    unfold registerClass at hok
    rw [table_of_settle hok fun _ => rfl]
    exact .same
  | createObject id name =>
    obtain ⟨answer, hok⟩ := reply_ok hok
    exact createObject_edits hok
  | setFlags h m =>
    cases hok
    exact setFlags_edits
  | clearFlags h m | removeRoot h =>
    cases hok
    exact clearFlags_edits
  | addRoot h =>
    cases hok
    exact addRoot_edits
  | kill h =>
    cases hok
    exact kill_edits
  | setReference h offset target | pushReference h offset target =>
    obtain ⟨answer, hok⟩ := reply_ok hok
    exact writeReference_edits hok
  | putCell h offset cell =>
    obtain ⟨answer, hok⟩ := reply_ok hok
    exact putCell_edits hok
  | revise h f =>
    obtain ⟨answer, hok⟩ := reply_ok hok
    exact revise_edits hok
  | formCluster root members =>
    obtain ⟨answer, hok⟩ := reply_ok hok
    exact formCluster_edits hok
  | hold =>
    cases hok
    unfold hold
    split <;> exact .same
  | letGo | setGate _ | drain =>
    cases hok
    exact .same

end Collector

/-- What a collection leaves of an object of the permanent pool: everything, but for weak references to
the dead. -/
structure Object.Stays (s : Schema) (dead : Handle → Prop) (o o' : Object) : Prop
    extends o.Same o' where
  owner : o'.owner = o.owner
  flags : o'.flags = o.flags
  /-- The values stay, and so do the shapes of arrays and containers. -/
  shape : o'.cells.map Cell.hollow = o.cells.map Cell.hollow
  slot : ∀ a, o'.slot? a = o.slot? a ∨ o'.slot? a = some none ∧ s.Reports o a .weak ∧
    ∃ g, o.slot? a = some (some g) ∧ dead g

theorem Object.Stays.refl {s : Schema} {dead : Handle → Prop} (o : Object) : o.Stays s dead o :=
  ⟨⟨rfl, rfl, rfl⟩, rfl, rfl, rfl, fun _ => .inl rfl⟩

namespace Collector

variable {b c d : Collector} {op : Operation} {reply : Reply} {h : Handle} {o : Object}
  {keep : Flags} {full : Bool} {stats : Statistics}

def FoundDead (c d : Collector) (g : Handle) : Prop := c.table.Awake g ∧ ¬ d.table.Awake g

/-- A call leaves the permanent pool alone, but for weak references to objects that it finds dead. -/
structure Shelters (c d : Collector) : Prop where
  vacates : c.table.Vacates d.table
  stays : ∀ h o, c.table.get? h = some o → c.table.isPermanent h = true →
    ∃ o', d.table.get? h = some o' ∧ o.Stays c.schema (c.FoundDead d) o'
  gone : ∀ h, c.table.get? h = none → c.table.isPermanent h = true → d.table.get? h = none
  silent : ∀ h, c.table.isPermanent h = true →
    Event.about d.journal.events h = Event.about c.journal.events h

theorem Shelters.sheltered (a : c.Shelters d) (ht : c.table.Sheltered) : d.table.Sheltered := by
  refine ht.vacates a.vacates fun h hp => ?_
  cases ho : c.table.get? h with
  | none => simp [Table.isUnreachable, Table.has, a.gone h ho hp]
  | some o =>
    obtain ⟨o', ho', hstays⟩ := a.stays h o ho hp
    rw [Table.isUnreachable_of_get? ho', Object.isUnreachable, Object.has, hstays.flags]
    exact (Table.isUnreachable_of_get? ho).symm.trans (ht.awake h hp)

structure Passes (c d : Collector) : Prop where
  vacates : c.table.Vacates d.table
  same : ∀ h, c.table.isPermanent h = true → d.table.get? h = c.table.get? h
  silent : ∀ h, c.table.isPermanent h = true →
    Event.about d.journal.events h = Event.about c.journal.events h

theorem Passes.shelters (a : c.Passes d) : c.Shelters d :=
  ⟨a.vacates, fun h o ho hp => ⟨o, (a.same h hp).trans ho, .refl o⟩,
    fun h ho hp => (a.same h hp).trans ho, a.silent⟩

theorem Passes.refl (c : Collector) : c.Passes c := ⟨.refl _, fun _ _ => rfl, fun _ _ => rfl⟩

theorem Passes.isPermanent (a : c.Passes d) (h : Handle) :
    d.table.isPermanent h = c.table.isPermanent h := by
  rw [Table.isPermanent, Table.isPermanent, a.vacates.boundary]

theorem runPurge_passes (hc : c.Sound) (hs : c.Standing) (ht : c.table.Sheltered)
    {deadline : Option Deadline} {progress : Progress}
    (hok : c.runPurge deadline = .ok (progress, d)) : c.Passes d := by
  have hspares := ((runPurge_spec hc deadline).ok hok).spares
  obtain ⟨p, hrun, rfl⟩ := runPurge_ok hok
  obtain ⟨hran, -⟩ := PurgeState.ran_of_run (p := c.pending) hs hrun
  refine ⟨PurgeState.run_vacates (p := c.pending) hs hrun, fun h hp => ?_,
    fun h hp => hran.silent (ht.awake h hp)⟩
  cases ho : c.table.get? h with
  | none =>
    have hgone := hspares.pooled h hp
    rw [Table.contains, Table.contains, ho] at hgone
    exact Option.isNone_iff_eq_none.mp (by simpa using hgone)
  | some o => exact hspares.same h o ho ((Table.isUnreachable_of_get? ho).symm.trans (ht.awake h hp))

theorem finishPurge_passes (hc : c.Sound) (hs : c.Standing) (ht : c.table.Sheltered) {n : Nat}
    (hok : c.finishPurge = .ok (n, d)) : c.Passes d := by
  obtain ⟨progress, hrun, -⟩ := finishPurge_ok hok
  exact runPurge_passes hc hs ht hrun

section

variable {seeds roots : List Handle} {t₀ t₁ t₂ : Table} {r : Stand} {cs₁ : Clusters} {cleared : Nat}
  (a : c.Search keep seeds t₀ r roots t₁ cs₁ cleared t₂)
include a

/-- Up to the verdict, a search leaves the objects of the pool as they are. -/
theorem Search.pooled (ho : c.table.get? h = some o) (hp : c.table.isPermanent h = true) :
    t₁.get? h = some o := by
  obtain ⟨o₀, ho₀, hseeded⟩ := a.sown.kept h o ho
  obtain ⟨o₁, ho₁, -, hsame⟩ := Table.Evolves.kept a.retained.outlasts h o₀ ho₀
  rw [ho₁, hsame ((a.sown.isPermanent h).trans hp), hseeded.permanent hp]

/-- Whoever the search flags was not flagged before. -/
theorem Search.awake_before (ht : c.table.Sheltered) (hu : t₁.isUnreachable h = true) :
    c.table.Awake h := by
  cases ho : c.table.get? h with
  | none =>
    have hgone := Table.Evolves.gone a.retained.outlasts h (a.sown.gone h ho)
    simp [Table.isUnreachable, Table.has, hgone] at hu
  | some o =>
    refine ⟨o, ho, ?_⟩
    cases hp : c.table.isPermanent h with
    | true => exact (Table.isUnreachable_of_get? ho).symm.trans (ht.awake h hp)
    | false => exact a.fresh h o ho hp

theorem Search.vacates : c.table.Vacates t₂ := by
  have hframe := (a.frame.trans a.retained.frame).trans a.nulls.toFrame
  exact .of_frame hframe (a.nulls.drops.boundary.trans
    ((Table.Evolves.boundary a.retained.outlasts).trans a.sown.boundary))

/-- What a search does to an object of the pool. -/
theorem Search.stays (ht : c.table.Sheltered) (ho : c.table.get? h = some o)
    (hp : c.table.isPermanent h = true) : ∃ o', t₂.get? h = some o' ∧
      o.Stays c.schema (fun g => c.table.Awake g ∧ ¬ t₂.Awake g) o' := by
  have ho₁ := a.pooled ho hp
  obtain ⟨o₂, ho₂, hthin, howner, hflags⟩ := a.nulls.drops.kept h o ho₁
  refine ⟨o₂, ho₂, hthin.toSame, howner, hflags, ?_, fun x => ?_⟩
  · obtain ⟨as, has⟩ := hthin.emptied
    rw [has, Cell.hollow_clearAll]
  · refine (hthin.slot x).imp_right fun ⟨g, hslot, hdead, hnone⟩ => ⟨hnone, ?_, g, hslot, ?_, ?_⟩
    · obtain ⟨-, o', -, ho', hweak, -⟩ := a.nulls.within ⟨h, x⟩ g
        ((Table.slotAt?_eq ho₁).trans hslot) ((Table.slotAt?_eq ho₂).trans hnone)
      rw [ho₁] at ho'
      cases ho'
      exact hweak
    · exact a.awake_before ht hdead
    · intro hawake
      have hlater := a.nulls.drops.isUnreachable g
      rw [hawake.isUnreachable, hdead] at hlater
      cases hlater

end

/-- Finding the dead leaves the pool alone, but for weak references to them. -/
theorem condemn_shelters (hc : c.Sound) (ht : c.table.Sheltered)
    (hok : c.condemn keep = .ok (stats, d)) : c.Shelters d := by
  obtain ⟨-, -, hjournal, -⟩ := finds_of_condemn hok
  obtain ⟨_, _, _, _, _, a, -⟩ := search_of_condemn hc hok
  exact ⟨a.vacates, fun h o ho hp => a.stays ht ho hp, fun h ho _ => a.nulls.drops.gone h
    (Table.Evolves.gone a.retained.outlasts h (a.sown.gone h ho)), fun h _ => by rw [hjournal]⟩

theorem collect_shelters (hc : c.Sound) (hs : c.Standing) (ht : c.table.Sheltered)
    (hok : c.collect keep full = .ok (stats, d)) : c.Shelters d := by
  obtain ⟨n, b, hfinish, found, m, hcondemn, freed, e, hend, -, rfl⟩ := collect_ok hok
  obtain ⟨hpurged, hidle⟩ := hs.first_phase hc hfinish
  have hfirst : c.Passes b := by
    have hpasses := finishPurge_passes (c := c.relocked c.lock 0) (hc.relocked c.lock 0) hs ht hfinish
    exact ⟨hpasses.vacates, hpasses.same, hpasses.silent⟩
  have hb := hfirst.shelters.sheltered ht
  have hmark := condemn_shelters hpurged.sound hb hcondemn
  obtain ⟨hm, -⟩ := hpurged.sound.condemned hcondemn
  have hlast : m.Passes e := by
    cases full with
    | true =>
      exact finishPurge_passes hm (hidle.requested hcondemn).standing (hmark.sheltered hb) hend
    | false =>
      cases hend
      exact .refl m
  have hspares := (last_phase hm hend).spares
  have hperm : ∀ {h}, c.table.isPermanent h = true → b.table.isPermanent h = true ∧
      m.table.isPermanent h = true := by
    intro h hp
    have hbp := (hfirst.isPermanent h).trans hp
    refine ⟨hbp, ?_⟩
    rw [Table.isPermanent, hmark.vacates.boundary]
    exact hbp
  refine ⟨(hfirst.vacates.trans hmark.vacates).trans hlast.vacates, fun h o ho hp => ?_,
    fun h ho hp => ?_, fun h hp => ?_⟩
  · obtain ⟨hbp, hmp⟩ := hperm hp
    obtain ⟨o', ho', hstays⟩ := hmark.stays h o ((hfirst.same h hp).trans ho) hbp
    refine ⟨o', (hlast.same h hmp).trans ho', hstays.toSame, hstays.owner, hstays.flags, hstays.shape,
      fun x => (hstays.slot x).imp_right ?_⟩
    rintro ⟨hnone, hweak, g, hslot, hbefore, hafter⟩
    exact ⟨hnone, hpurged.schema ▸ hweak, g, hslot, hpurged.spares.awake_back hbefore,
      fun hawake => hafter (hspares.awake_back hawake)⟩
  · obtain ⟨hbp, hmp⟩ := hperm hp
    exact (hlast.same h hmp).trans (hmark.gone h ((hfirst.same h hp).trans ho) hbp)
  · obtain ⟨hbp, hmp⟩ := hperm hp
    exact ((hlast.silent h hmp).trans (hmark.silent h hbp)).trans (hfirst.silent h hp)

theorem perform_shelters (hc : c.Sound) (hs : c.Standing) (ht : c.table.Sheltered)
    (hop : op.collects = true) (hok : c.perform op = .ok (reply, d)) : c.Shelters d := by
  obtain ⟨lock, misses, hcases⟩ := perform_collects hop hok
  have hc' := hc.relocked lock misses
  have hs' : (c.relocked lock misses).Standing := hs
  have hback : ∀ {e : Collector}, (c.relocked lock misses).Shelters e → c.Shelters e :=
    fun a => ⟨a.vacates, a.stays, a.gone, a.silent⟩
  rcases hcases with rfl | ⟨keep, full, stats, hd⟩ | ⟨deadline, progress, hd⟩ | ⟨-, n, e, hd, rfl⟩
  · exact hback (Passes.refl _).shelters
  · exact hback (collect_shelters hc' hs' ht hd)
  · exact hback (runPurge_passes hc' hs' ht hd).shelters
  · have hshelters := hback (finishPurge_passes hc' hs' ht hd).shelters
    exact ⟨hshelters.vacates, hshelters.stays, hshelters.gone, hshelters.silent⟩

/-- A call keeps the pool sheltered, unless it closes the pool while a purge is pending. -/
theorem perform_sheltered (hc : c.Sound) (hs : c.Standing) (ht : c.table.Sheltered)
    (ha : op.Allowed c) (hclose : op = .closePermanentPool → c.purge.required = false)
    (hok : c.perform op = .ok (reply, d)) : d.table.Sheltered := by
  cases hop : op.collects with
  | true => exact (perform_shelters hc hs ht hop hok).sheltered ht
  | false =>
    by_cases hne : op = .closePermanentPool
    · subst hne
      cases hok
      exact ht.close (hs.idle (hclose rfl)).2
    · refine ht.vacates (perform_edits hop hne hok).vacates fun h hp => ?_
      cases hu : d.table.isUnreachable h with
      | false => rfl
      | true =>
        cases ho' : d.table.get? h with
        | none => simp [Table.isUnreachable, Table.has, ho'] at hu
        | some o' =>
          rw [Table.isUnreachable_of_get? ho'] at hu
          obtain ⟨o, ho, hstage⟩ := (perform_respects hc ha hop hok).abides.back_of_has ho' hu
          have hbefore := ht.awake h hp
          rw [Table.isUnreachable_of_get? ho, ← hstage.unreachable, hu] at hbefore
          cases hbefore

end Collector

/-- The calls of a program that closes the permanent pool only while no purge is pending. -/
inductive Calls (b : Collector) : Collector → Prop where
  | none : Calls b b
  | more {c d : Collector} {op : Operation} {reply : Reply} : Calls b c → op.Allowed c →
      (op = .closePermanentPool → c.purge.required = false) → c.perform op = .ok (reply, d) →
      Calls b d

namespace Calls

variable {b c d : Collector} {settings : Settings} {processors : Nat}

theorem reached (hc : Calls b c) (hb : Reached b) : Reached c := by
  induction hc with
  | none => exact hb
  | more _ ha _ hok ih => exact ih.step ha hok

theorem sheltered (hc : Calls b c) (hr : Reached b) (hb : b.table.Sheltered) :
    c.table.Sheltered := by
  induction hc with
  | none => exact hb
  | more hc ha hclose hok ih =>
    have hreached := hc.reached hr
    exact Collector.perform_sheltered hreached.sound hreached.standing ih ha hclose hok

/-- Calls that are written out. -/
theorem performAll {ops : List Operation} (hb : Calls b c)
    (hops : ∀ op ∈ ops, op ≠ .closePermanentPool ∧ ∀ e, op.Allowed e)
    (hd : c.performAll ops = .ok d) : Calls b d := by
  induction ops generalizing c with
  | nil =>
    cases hd
    exact hb
  | cons op rest ih =>
    obtain ⟨reply, e, he, hd⟩ := Collector.performAll_cons hd
    obtain ⟨hne, ha⟩ := hops op (List.mem_cons_self ..)
    have hstep := hb.more (ha c) (fun heq => absurd heq hne) he
    exact ih hstep (fun o ho => hops o (List.mem_cons_of_mem _ ho)) hd

theorem asksNothing_iff {ops : List Operation} (hops : ops.all (·.asksNothing) = true) :
    ∀ op ∈ ops, op ≠ .closePermanentPool ∧ ∀ e, op.Allowed e := by
  intro op hop
  have ha := List.all_eq_true.mp hops op hop
  refine ⟨?_, Operation.allowed_of_asksNothing ha⟩
  rintro rfl
  cases ha

theorem of_runs {spec : ClassSpec} {ops : List Operation} {test : Collector → Bool}
    (hspec : spec.Honest) (hops : ops.all (·.asksNothing) = true)
    (hrun : Collector.runs settings spec ops test = true) :
    ∃ c, Calls (.start settings 1) c ∧ test c = true := by
  obtain ⟨c, hc, htest⟩ := Collector.performAll_of_runs hrun
  obtain ⟨reply, e, he, hc⟩ := Collector.performAll_cons hc
  have ha : (Operation.registerClass spec).Allowed (.start settings 1) := hspec
  have hstep : Calls (.start settings 1) e := .more .none ha (fun hne => nomatch hne) he
  exact ⟨c, hstep.performAll (asksNothing_iff hops) hc, htest⟩

end Calls

end TracingHeap
