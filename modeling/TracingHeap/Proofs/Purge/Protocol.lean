import TracingHeap.Proofs.Purge.Pieces
import TracingHeap.Proofs.Purge.Journal

namespace TracingHeap

namespace Table

variable {t t' : Table} {h : Handle}

theorem Tidy.mem_map_objects (ht : t.Tidy) :
    h ∈ t.objects.map (·.handle) ↔ ∃ o, t.get? h = some o := by
  simp only [objects, List.mem_map, List.mem_filterMap, id_eq, exists_eq_right]
  constructor
  · rintro ⟨o, hm, rfl⟩
    obtain ⟨i, hi⟩ := List.mem_iff_getElem?.mp hm
    exact ⟨o, (ht.getElem?_toList.mp hi).1⟩
  · rintro ⟨o, ho⟩
    have hh := ht.handle_eq ho
    exact ⟨o, List.mem_iff_getElem?.mpr ⟨_, ht.getElem?_toList.mpr ⟨hh ▸ ho, rfl⟩⟩, hh⟩

theorem Tidy.nodup_map_objects (ht : t.Tidy) : (t.objects.map (·.handle)).Nodup :=
  nodup_handles t.slots.toList 0 fun i o hi => by
    rw [(ht.getElem?_toList.mp hi).2, Nat.zero_add]

def lost (t t' : Table) : List Handle :=
  (t.objects.map (·.handle)).filter fun h => !t'.contains h

theorem Tidy.mem_lost (ht : t.Tidy) :
    h ∈ t.lost t' ↔ (∃ o, t.get? h = some o) ∧ t'.get? h = none := by
  rw [lost, List.mem_filter, ht.mem_map_objects]
  simp only [Bool.not_eq_true', contains, Option.isSome_eq_false_iff, Option.isNone_iff_eq_none]

theorem Tidy.nodup_lost (ht : t.Tidy) (t' : Table) : (t.lost t').Nodup :=
  ht.nodup_map_objects.filter _

theorem lost_eq_nil (ht : t.Tidy) (hkept : ∀ h o, t.get? h = some o → ∃ o', t'.get? h = some o') :
    t.lost t' = [] := by
  refine List.eq_nil_iff_forall_not_mem.mpr fun h hm => ?_
  obtain ⟨⟨o, ho⟩, hnone⟩ := ht.mem_lost.mp hm
  obtain ⟨o', ho'⟩ := hkept h o ho
  rw [hnone] at ho'
  cases ho'

end Table

theorem Tells.lost_eq_nil {s : Schema} {t t' : Table} {news : List Event} (b : Tells s t news t')
    (ht : t.Tidy) : t.lost t' = [] := by
  refine Table.lost_eq_nil ht fun h o ho => ?_
  obtain ⟨o', ho', -⟩ := b.kept h o ho
  exact ⟨o', ho'⟩

open Lifecycle (Story)

namespace Collector

variable {c d e f : Collector} {freed : List Handle} {log news : List Event} {s : Schema}
  {t t' : Table} {h : Handle} {o : Object}

/-- A collection has left the object to be destroyed and freed. -/
def Dooms (d : Collector) (h : Handle) : Prop :=
  ∃ o, d.table.get? h = some o ∧ o.isUnreachable = true ∧ d.table.isPermanent h = false

/-- What has become of the doomed objects: some have been freed, with all told of them, and the others
are still there, with as much told of them as they have flags. -/
structure Accounts (d : Collector) (freed : List Handle) (log : List Event) (s : Schema)
    (t : Table) : Prop where
  boundary : t.boundary = d.table.boundary
  flagged : ∀ h o, t.get? h = some o → o.isUnreachable = true → t.isPermanent h = false →
    d.Dooms h ∧ h ∉ freed
  waiting : ∀ h o, d.table.get? h = some o → d.Dooms h → h ∉ freed → ∃ o', t.get? h = some o' ∧
    o.Same o' ∧ o'.isUnreachable = true ∧ s.lifecycle o'.classId = d.schema.lifecycle o.classId ∧
      Story (d.schema.lifecycle o.classId) o (o'.has .beginDestroyed) (o'.has .finishDestroyed)
        (Event.about log h)
  gone : ∀ h ∈ freed, d.Dooms h ∧ ∀ o, d.table.get? h = some o →
    Story (d.schema.lifecycle o.classId) o true true (Event.about log h)
  quiet : ∀ h, ¬ d.Dooms h → Event.about log h = []
  distinct : freed.Nodup

namespace Accounts

/-- Nothing has happened yet. -/
theorem start (hfresh : ∀ h o, d.table.get? h = some o → o.isUnreachable = true →
    d.table.isPermanent h = false → o.has .beginDestroyed = false ∧ o.has .finishDestroyed = false) :
    d.Accounts [] [] d.schema d.table := by
  refine ⟨rfl, fun h o ho hu hp => ⟨⟨o, ho, hu, hp⟩, List.not_mem_nil⟩, fun h o ho hd _ => ?_,
    fun h hh => (List.not_mem_nil hh).elim, fun _ _ => rfl, .nil⟩
  obtain ⟨p, hp, hu, hperm⟩ := hd
  rw [ho] at hp
  cases hp
  obtain ⟨hb, hf⟩ := hfresh h o ho hu hperm
  refine ⟨o, ho, ⟨rfl, rfl, rfl⟩, hu, rfl, ?_⟩
  rw [hb, hf]
  exact .untouched

/-- The objects go on with their stories. -/
theorem tells (a : d.Accounts freed log s t) (b : Tells s t news t') :
    d.Accounts freed (news ++ log) s t' := by
  have hperm : ∀ h, t'.isPermanent h = t.isPermanent h := by
    intro h
    rw [Table.isPermanent, Table.isPermanent, b.boundary]
  -- what is told is told of objects that are doomed and have not been freed
  have hquiet : ∀ h, (d.Dooms h → h ∈ freed) → Event.about news h = [] := by
    refine fun h hh => b.quiet h fun o ho hu => ?_
    cases hp : t.isPermanent h with
    | true => rfl
    | false =>
      obtain ⟨hd, hout⟩ := a.flagged h o ho hu hp
      exact absurd (hh hd) hout
  refine ⟨b.boundary.trans a.boundary, fun h o' ho' hu hp => ?_, fun h o ho hd hout => ?_,
    fun h hh => ?_, fun h hd => ?_, a.distinct⟩
  · obtain ⟨o, ho, hw⟩ := b.back ho'
    exact a.flagged h o ho (hw.isUnreachable.symm.trans hu) ((hperm h).symm.trans hp)
  · obtain ⟨p, hp, hsame, hu, hlife, hstory⟩ := a.waiting h o ho hd hout
    obtain ⟨q, hq, hw, hgoes⟩ := b.kept h p hp
    refine ⟨q, hq, ⟨hw.handle.trans hsame.handle, hw.classId.trans hsame.classId,
      hw.name.trans hsame.name⟩, hw.isUnreachable.trans hu, ?_, ?_⟩
    · rw [hw.classId, hlife]
    · have hback : p.Same o := ⟨hsame.handle.symm, hsame.classId.symm, hsame.name.symm⟩
      rw [hlife] at hgoes
      rw [Event.about_append]
      exact (hgoes _ (hstory.same hsame)).same hback
  · obtain ⟨hd, htold⟩ := a.gone h hh
    refine ⟨hd, fun o ho => ?_⟩
    rw [Event.about_append, hquiet h fun _ => hh]
    exact htold o ho
  · rw [Event.about_append, hquiet h fun hd' => absurd hd' hd, a.quiet h hd]
    rfl

/-- Once both stages are over for every flagged object, all is told of all doomed objects. -/
theorem told (a : d.Accounts freed log s t) (hover : ∀ h o, t.get? h = some o →
      o.isUnreachable = true → t.isPermanent h = false →
        o.has .beginDestroyed = true ∧ o.has .finishDestroyed = true)
    (ho : d.table.get? h = some o) (hd : d.Dooms h) :
    Story (d.schema.lifecycle o.classId) o true true (Event.about log h) := by
  by_cases hh : h ∈ freed
  · exact (a.gone h hh).2 o ho
  · obtain ⟨p, hp, hsame, hu, -, hstory⟩ := a.waiting h o ho hd hh
    have hperm : t.isPermanent h = false := by
      obtain ⟨-, -, -, hperm⟩ := hd
      rwa [Table.isPermanent, a.boundary]
    obtain ⟨hb, hf⟩ := hover h p hp hu hperm
    rwa [hb, hf] at hstory

/-- Freeing doomed objects whose stories are over. -/
theorem clears {w w' : Sweep} {lost : List Handle} (a : d.Accounts freed log s w.table)
    (b : w.Clears w') (hripe : w.table.Ripe w.cursor) (hnodup : lost.Nodup)
    (hlost : ∀ h, h ∈ lost ↔ (∃ o, w.table.get? h = some o) ∧ w'.table.get? h = none) :
    d.Accounts (freed ++ lost) log s w'.table := by
  have hcleared : ∀ h ∈ lost, ∃ o, w.table.get? h = some o ∧ o.isUnreachable = true ∧
      w.table.isPermanent h = false ∧ w.cursor ≤ h.index := by
    intro h hh
    obtain ⟨⟨o, ho⟩, hnone⟩ := (hlost h).mp hh
    rw [b.get] at hnone
    split at hnone
    · rename_i hpast
      exact ⟨o, ho, (Table.isUnreachable_of_get? ho).symm.trans hpast.1, hpast.2.1, hpast.2.2.1⟩
    · rw [ho] at hnone
      cases hnone
  have hback : ∀ h o, w'.table.get? h = some o → w.table.get? h = some o := by
    intro h o ho
    rw [b.get] at ho
    split at ho
    · cases ho
    · exact ho
  refine ⟨b.boundary.trans a.boundary, fun h o ho hu hp => ?_, fun h o ho hd hout => ?_,
    fun h hh => ?_, a.quiet, List.nodup_append.mpr ⟨a.distinct, hnodup, fun g hg g' hg' => ?_⟩⟩
  · rw [Table.isPermanent, b.boundary] at hp
    obtain ⟨hd, hout⟩ := a.flagged h o (hback h o ho) hu hp
    refine ⟨hd, fun hm => ?_⟩
    rcases List.mem_append.mp hm with hm | hm
    · exact hout hm
    · rw [((hlost h).mp hm).2] at ho
      cases ho
  · rw [List.mem_append, not_or] at hout
    obtain ⟨p, hp, hrest⟩ := a.waiting h o ho hd hout.1
    refine ⟨p, ?_, hrest⟩
    cases hx : w'.table.get? h with
    | none => exact absurd ((hlost h).mpr ⟨⟨p, hp⟩, hx⟩) hout.2
    | some q => rw [← hp, ← hback h q hx]
  · rcases List.mem_append.mp hh with hh | hh
    · exact a.gone h hh
    · obtain ⟨o, ho, hu, hp, hc⟩ := hcleared h hh
      obtain ⟨hd, hout⟩ := a.flagged h o ho hu hp
      refine ⟨hd, fun q hq => ?_⟩
      obtain ⟨p, hp', -, -, -, hstory⟩ := a.waiting h q hq hd hout
      rw [ho] at hp'
      cases hp'
      obtain ⟨hb, hf⟩ := hripe h o ho hu hc
      rwa [hb, hf] at hstory
  · rintro rfl
    obtain ⟨o, ho, hu, hp, -⟩ := hcleared g hg'
    exact (a.flagged g o ho hu hp).2 hg

/-- A call that leaves every object at its stage. -/
theorem abides (a : d.Accounts freed log s t) (b : t.Abides t') (hbound : t'.boundary = t.boundary)
    {s' : Schema} (hlife : ∀ h o, t.get? h = some o → s'.lifecycle o.classId = s.lifecycle o.classId) :
    d.Accounts freed log s' t' := by
  refine ⟨hbound.trans a.boundary, fun h o' ho' hu hp => ?_, fun h o ho hd hout => ?_, a.gone,
    a.quiet, a.distinct⟩
  · obtain ⟨o, ho, hsame⟩ := b.back_of_has ho' hu
    exact a.flagged h o ho (hsame.unreachable.symm.trans hu) (b.collectable h o' ho' hp)
  · obtain ⟨p, hp, hsame, hu, hl, hstory⟩ := a.waiting h o ho hd hout
    obtain ⟨q, hq, hstage⟩ := b.kept h p hp
    refine ⟨q, hq, ⟨hstage.handle.trans hsame.handle, hstage.classId.trans hsame.classId,
      hstage.name.trans hsame.name⟩, hstage.unreachable.trans hu, ?_, ?_⟩
    · rw [hstage.classId, hlife h p hp, hl]
    · rw [hstage.begun, hstage.finished]
      exact hstory

/-- What the second phase frees, the first phase before it included. -/
theorem swept {p q f : PurgeState} {w : Sweep} {looks : Nat} {ended : Bool}
    (a : d.Accounts freed log s p.table) (hs : p.purge.Stands p.table) (hout : p.Outside)
    (hreq : p.purge.required = true) (hq : PurgeState.Routes s p q)
    (hrouted : q.purge.routed = true) (hw : PurgeState.Sweeps looks q f ended w) : ∃ news,
      f.journal.events = news ++ p.journal.events ∧
      d.Accounts (freed ++ p.table.lost f.table) (news ++ log) s f.table := by
  obtain ⟨news, hevents, htells⟩ := hq.tells (hout hreq)
  obtain ⟨-, hripe, -⟩ := (hq.stands hs hreq).ripe hq.required hrouted
  refine ⟨news, by rw [hw.journal, hevents], ?_⟩
  rw [hw.table]
  refine (a.tells htells).clears hw.clears hripe (hs.tidy.nodup_lost _) fun h => ?_
  rw [hs.tidy.mem_lost]
  refine and_congr_left fun _ => ⟨fun ⟨o, ho⟩ => ?_, fun ⟨o, ho⟩ => ?_⟩
  · obtain ⟨o', ho', -⟩ := htells.kept h o ho
    exact ⟨o', ho'⟩
  · obtain ⟨o, ho, -⟩ := htells.back ho
    exact ⟨o, ho⟩

/-- What a purge call does to the account. Nothing is freed before the second phase, and only what is
doomed is left to be destroyed while a call has been cut off. -/
theorem ran {p q : PurgeState} {progress : Progress} (a : d.Accounts freed log s p.table)
    (hs : p.purge.Stands p.table) (hout : p.Outside)
    (hlate : freed ≠ [] → p.purge.required = true ∧ p.purge.routed = true)
    (hran : PurgeState.Ran s p progress q) : ∃ news,
      q.journal.events = news ++ p.journal.events ∧
      d.Accounts (freed ++ p.table.lost q.table) (news ++ log) s q.table ∧
      (progress.completed = false → freed ++ p.table.lost q.table ≠ [] →
        q.purge.required = true ∧ q.purge.routed = true) ∧
      (progress.completed = true → ∀ h o, q.table.get? h = some o →
        q.table.isPermanent h = false → o.isUnreachable = false) := by
  cases hran with
  | idle hreq =>
    refine ⟨[], rfl, ?_, nofun, fun _ => (hs.idle hreq).2⟩
    rw [Table.lost_eq_nil hs.tidy fun h o ho => ⟨o, ho⟩, List.append_nil]
    exact a
  | routed hreq hq =>
    obtain ⟨news, hevents, htells⟩ := hq.tells (hout hreq)
    rw [htells.lost_eq_nil hs.tidy, List.append_nil]
    refine ⟨news, hevents, a.tells htells, fun _ hne => ⟨hq.required, ?_⟩, nofun⟩
    have hrouted := (hlate hne).2
    rcases hq.cases with ⟨-, rfl⟩ | ⟨hgo, -⟩
    · exact (p.purge.placeCursor_frame p.table).2.1.trans hrouted
    · rw [hrouted] at hgo
      cases hgo
  | @swept r _ _ _ hreq hq hrouted hw =>
    obtain ⟨news, hevents, haccounts⟩ := a.swept hs hout hreq hq hrouted hw
    obtain ⟨hreq', hrouted', -⟩ := r.purge.placeCursor_frame r.table
    refine ⟨news, hevents, haccounts, fun _ _ => ?_, nofun⟩
    rw [hw.purge]
    exact ⟨hreq'.trans hq.required, hrouted'.trans hrouted⟩
  | done hreq hq hrouted hw =>
    obtain ⟨news, hevents, haccounts⟩ := a.swept hs hout hreq hq hrouted hw
    exact ⟨news, hevents, haccounts, nofun,
      fun _ => (hw.idle (hq.stands hs hreq) hq.required hrouted).2.1⟩

end Accounts

end Collector

/-- Whether a call may come between two that carry a purge on: it does not collect, and it neither
closes the permanent pool nor empties the journal. -/
def Operation.mutates : Operation → Bool
  | closePermanentPool | drain => false
  | op => !op.collects

theorem Operation.mutates_iff {op : Operation} : op.mutates = true ↔
    op.collects = false ∧ op ≠ .closePermanentPool ∧ op ≠ .drain := by
  cases op <;> simp [mutates, collects]

/-- Calls that carry a purge on, none of which completes it, with other calls in between. The list holds
what all of them have freed. -/
inductive Course (d : Collector) : List Handle → Collector → Prop where
  | start : Course d [] d
  | mutate {freed : List Handle} {e f : Collector} {op : Operation} {reply : Reply} :
      Course d freed e → op.mutates = true → op.Allowed e → e.perform op = .ok (reply, f) →
      Course d (freed ++ e.table.lost f.table) f
  | purge {freed : List Handle} {e f : Collector} {deadline : Option Deadline} {progress : Progress} :
      Course d freed e → e.runPurge deadline = .ok (progress, f) → progress.completed = false →
      Course d (freed ++ e.table.lost f.table) f

namespace Collector

variable {c d e f : Collector} {freed : List Handle} {keep : Flags} {full : Bool}
  {stats : Statistics} {deadline : Option Deadline} {progress : Progress}

/-- What a collection has flagged has not begun to be destroyed. -/
theorem collect_fresh (hc : c.Sound) (hs : c.Standing) (hok : c.collect keep full = .ok (stats, d)) :
    d.pending.Outside ∧ ∀ h o, d.table.get? h = some o → o.isUnreachable = true →
      d.table.isPermanent h = false →
        o.has .beginDestroyed = false ∧ o.has .finishDestroyed = false := by
  obtain ⟨n, b, hfinish, found, m, hcondemn, freed, e, hend, -, rfl⟩ := collect_ok hok
  have hm := (hs.first_phase hc hfinish).2.requested hcondemn
  cases full with
  | true =>
    obtain ⟨he, hnone⟩ := hm.standing.finishPurge hend
    refine ⟨fun hreq => ?_, fun h o ho hu hp => ?_⟩
    · change e.purge.required = true at hreq
      rw [hnone] at hreq
      cases hreq
    · rw [(he.idle hnone).2 h o ho hp] at hu
      cases hu
  | false =>
    cases hend
    refine ⟨hm.outside, fun h o ho hu hp => ?_⟩
    apply (hm.standing.underway hm.required hm.routed).ahead h o ho hu
    rw [Purge.placeCursor_rewind hm.rewind]
    simpa [Table.isPermanent] using hp

/-- Where the first phase stands depends on the boundary of the permanent pool only. -/
theorem outside_congr {p q : PurgeState} (hpurge : q.purge = p.purge)
    (hbound : q.table.boundary = p.table.boundary) (hp : p.Outside) : q.Outside := by
  intro hreq hrouted
  rw [hpurge] at hreq hrouted
  have hstart := hp hreq hrouted
  have hplace : q.purge.placeCursor q.table = p.purge.placeCursor p.table := by
    rw [hpurge, Purge.placeCursor, Purge.placeCursor, hbound]
  refine ⟨?_, fun h hh => ?_⟩
  · change q.table.boundary ≤ (q.purge.placeCursor q.table).cursor
    rw [hplace, hbound]
    exact hstart.cursor
  · change h ∈ (q.purge.placeCursor q.table).parked at hh
    rw [hplace] at hh
    change q.table.isPermanent h = false
    rw [Table.isPermanent, hbound]
    exact hstart.parked h hh

structure Underway (d : Collector) (freed : List Handle) (log : List Event) (e : Collector) :
    Prop where
  sound : e.Sound
  standing : e.Standing
  outside : e.pending.Outside
  events : e.journal.events = log ++ d.journal.events
  accounts : d.Accounts freed log e.schema e.table
  late : freed ≠ [] → e.purge.required = true ∧ e.purge.routed = true

theorem Underway.mutate {op : Operation} {reply : Reply} {log : List Event}
    (u : d.Underway freed log e) (hop : op.mutates = true) (ha : op.Allowed e)
    (hok : e.perform op = .ok (reply, f)) :
    d.Underway (freed ++ e.table.lost f.table) log f := by
  obtain ⟨hcollects, hclose, hdrain⟩ := Operation.mutates_iff.mp hop
  have hr := perform_respects u.sound ha hcollects hok
  have hnone : e.table.lost f.table = [] := by
    refine Table.lost_eq_nil u.sound.settled.orderly.tidy fun h o ho => ?_
    obtain ⟨o', ho', -⟩ := hr.abides.kept h o ho
    exact ⟨o', ho'⟩
  rw [hnone, List.append_nil]
  refine ⟨(perform_keeps u.sound ha).ok hok, u.standing.perform u.sound ha hok,
    outside_congr (p := e.pending) (q := f.pending) hr.purge (hr.boundary hclose) u.outside,
    (hr.events hdrain).trans u.events, u.accounts.abides hr.abides (hr.boundary hclose) fun h o ho =>
      hr.lifecycle o (u.sound.settled.orderly.fits h o ho), ?_⟩
  rw [hr.purge]
  exact u.late

/-- A purge call in the course of a purge. -/
theorem Underway.purge {log : List Event} (u : d.Underway freed log e)
    (hok : e.runPurge deadline = .ok (progress, f)) : ∃ news,
      f.journal.events = news ++ log ++ d.journal.events ∧
      d.Accounts (freed ++ e.table.lost f.table) (news ++ log) f.schema f.table ∧
      (progress.completed = false →
        d.Underway (freed ++ e.table.lost f.table) (news ++ log) f) ∧
      (progress.completed = true → ∀ h o, f.table.get? h = some o →
        f.table.isPermanent h = false → o.isUnreachable = false) := by
  have hsound := ((runPurge_spec u.sound deadline).ok hok).sound
  have hstanding := (u.standing.runPurge hok).1
  obtain ⟨q, hrun, rfl⟩ := runPurge_ok hok
  obtain ⟨hran, -, -⟩ := PurgeState.ran_of_run (p := e.pending) u.standing hrun
  obtain ⟨hout, -, -⟩ := hran.aims u.standing u.outside
  obtain ⟨news, hevents, haccounts, hlate, hover⟩ :=
    Accounts.ran (p := e.pending) u.accounts u.standing u.outside u.late hran
  have hlog : q.journal.events = news ++ log ++ d.journal.events := by
    rw [hevents, List.append_assoc, ← u.events]
    rfl
  exact ⟨news, hlog, haccounts, fun hcut => ⟨hsound, hstanding, hout, hlog, haccounts, hlate hcut⟩,
    hover⟩

/-- Once an object has been freed, both stages are over for all that is still flagged. -/
theorem Underway.over {log : List Event} (u : d.Underway freed log e) (hne : freed ≠ []) :
    ∀ h o, e.table.get? h = some o → o.isUnreachable = true → e.table.isPermanent h = false →
      o.has .beginDestroyed = true ∧ o.has .finishDestroyed = true := by
  intro h o ho hu hp
  obtain ⟨hreq, hrouted⟩ := u.late hne
  obtain ⟨-, hripe, hleft⟩ := u.standing.ripe hreq hrouted
  exact hripe h o ho hu (hleft h o ho hu hp)

end Collector

theorem Course.underway {d e : Collector} {freed : List Handle} (hd : d.Underway [] [] d)
    (hcourse : Course d freed e) : ∃ log, d.Underway freed log e := by
  induction hcourse with
  | start => exact ⟨[], hd⟩
  | mutate _ hop ha hok ih =>
    obtain ⟨log, u⟩ := ih
    exact ⟨log, u.mutate hop ha hok⟩
  | purge _ hok hcut ih =>
    obtain ⟨log, u⟩ := ih
    obtain ⟨news, -, -, hu, -⟩ := u.purge hok
    exact ⟨news ++ log, hu hcut⟩

/-- What has been done since a collection: the hooks of doomed objects have run as far as each object's
story tells, those of other objects have not run, and what has been freed was doomed and is freed once,
after all stories were over. -/
structure Collector.Destroys (d : Collector) (freed : List Handle) (e : Collector) : Prop where
  distinct : freed.Nodup
  doomed : ∀ h ∈ freed, d.Dooms h
  log : ∃ log, e.journal.events = log ++ d.journal.events ∧
    (∀ h, ¬ d.Dooms h → Event.about log h = []) ∧
    ∀ h o, d.table.get? h = some o → d.Dooms h → ∃ begun finished,
      Story (d.schema.lifecycle o.classId) o begun finished (Event.about log h) ∧
        (freed ≠ [] → begun = true ∧ finished = true)

theorem Collector.Accounts.destroys {d e : Collector} {freed : List Handle} {log : List Event}
    (a : d.Accounts freed log e.schema e.table)
    (hevents : e.journal.events = log ++ d.journal.events)
    (hover : freed ≠ [] → ∀ h o, e.table.get? h = some o → o.isUnreachable = true →
      e.table.isPermanent h = false →
        o.has .beginDestroyed = true ∧ o.has .finishDestroyed = true) : d.Destroys freed e := by
  refine ⟨a.distinct, fun h hh => (a.gone h hh).1, log, hevents, a.quiet, fun h o ho hd => ?_⟩
  by_cases hne : freed = []
  · obtain ⟨p, -, -, -, -, hstory⟩ :=
      a.waiting h o ho hd (by rw [hne]; exact List.not_mem_nil)
    exact ⟨_, _, hstory, fun h => absurd hne h⟩
  · exact ⟨true, true, a.told (hover hne) ho hd, fun _ => ⟨rfl, rfl⟩⟩

/-- The second phase of a purge enters nothing in the journal. -/
theorem PurgeState.journal_secondPhase {deadline : Option Deadline} {cut ended : Bool} {looks : Nat}
    {q g : PurgeState} (hok : q.secondPhase deadline cut looks = .ok (ended, g)) :
    g.journal = q.journal := by
  unfold secondPhase at hok
  split at hok
  · obtain ⟨found, -, hok⟩ := except_bind_ok hok
    cases hok
    rfl
  · cases hok
    rfl

/-- A purge call runs all its hooks before it frees anything. -/
theorem Collector.Underway.firstPhase {d e f : Collector} {freed : List Handle} {log : List Event}
    {deadline : Option Deadline} {progress : Progress} (u : d.Underway freed log e)
    (hreq : e.purge.required = true) (hok : e.runPurge deadline = .ok (progress, f)) :
    ∃ cut looks q, e.pending.firstPhase e.schema deadline = .ok (cut, looks, q) ∧
      e.table.lost q.table = [] ∧ f.journal = q.journal := by
  obtain ⟨p, hrun, rfl⟩ := Collector.runPurge_ok hok
  rw [PurgeState.run_eq (p := e.pending) hreq] at hrun
  obtain ⟨⟨cut, looks, q⟩, hfirst, hlate⟩ := except_bind_ok hrun
  obtain ⟨⟨ended, g⟩, hsecond, hend⟩ := except_bind_ok hlate
  obtain ⟨hroutes, -⟩ := PurgeState.firstPhase_routes (p := e.pending) u.standing hreq hfirst
  obtain ⟨news, -, htells⟩ := hroutes.tells (u.outside hreq)
  refine ⟨cut, looks, q, hfirst, htells.lost_eq_nil u.sound.settled.orderly.tidy, ?_⟩
  have hjournal := PurgeState.journal_secondPhase hsecond
  cases ended with
  | true =>
    cases hend
    exact hjournal
  | false =>
    cases hend
    exact hjournal

/-- The protocol of destruction. After a collection, let calls carry the purge on and others change the
heap, in any order, and let none complete the purge. Then each object that the collection has left
flagged outside the permanent pool is as far in its destruction as its story tells, and one more purge
call runs its hooks before it frees anything, frees nothing before all stories are over, and if it
completes the purge, exactly those objects have been freed. -/
theorem Collector.destruction_protocol {c d e : Collector} {keep : Flags} {full : Bool}
    {stats : Statistics} {freed : List Handle} (hr : Reached c)
    (hok : c.collect keep full = .ok (stats, d)) (hcourse : Course d freed e) :
    d.Destroys freed e ∧ ∀ deadline progress f, e.runPurge deadline = .ok (progress, f) →
      d.Destroys (freed ++ e.table.lost f.table) f ∧
      (e.purge.required = true → ∃ cut looks q,
        e.pending.firstPhase e.schema deadline = .ok (cut, looks, q) ∧
          e.table.lost q.table = [] ∧ f.journal = q.journal) ∧
      (progress.completed = true → ∀ h, h ∈ freed ++ e.table.lost f.table ↔ d.Dooms h) := by
  obtain ⟨hout, hfresh⟩ := Collector.collect_fresh hr.sound hr.standing hok
  have hsound : d.Sound := (Collector.collect_keeps hr.sound keep full).ok hok
  have hstanding := hr.standing.collect hr.sound hok
  obtain ⟨log, u⟩ := hcourse.underway
    ⟨hsound, hstanding, hout, rfl, .start hfresh, fun h => absurd rfl h⟩
  refine ⟨u.accounts.destroys u.events u.over, fun deadline progress f hpurge => ?_⟩
  obtain ⟨news, hevents, haccounts, hcut, hover⟩ := u.purge hpurge
  refine ⟨haccounts.destroys hevents fun hne => ?_, fun hreq => u.firstPhase hreq hpurge,
    fun hend h => ⟨fun hm => (haccounts.gone h hm).1, fun hd => ?_⟩⟩
  · cases hend : progress.completed with
    | false => exact (hcut hend).over hne
    | true =>
      intro h o ho hu hp
      rw [hover hend h o ho hp] at hu
      cases hu
  · by_contra hout'
    obtain ⟨o, ho, -, hp⟩ := id hd
    obtain ⟨o', ho', -, hu, -⟩ := haccounts.waiting h o ho hd hout'
    rw [Table.isPermanent, ← haccounts.boundary] at hp
    rw [hover hend h o' ho' hp] at hu
    cases hu

open Sample in
/-- A purge of two objects is cut off, an object is made, and the next call frees both. -/
theorem destruction_protocol_lingering : ∃ (c d e f : Collector) (stats : Statistics)
    (freed : List Handle) (progress : Progress), Reached c ∧ c.collect .empty false = .ok (stats, d) ∧
      Course d freed e ∧ e.runPurge none = .ok (progress, f) ∧ progress.completed = true ∧
      d.Dooms one ∧ one ∈ freed ++ e.table.lost f.table := by
  have hrun : Collector.runs .serial lingering (nodes 3 ++ [.addRoot two]) (fun c =>
      c.leaves .empty false fun d => match d.runPurge (some .always) with
        | .ok (progress, b) => !progress.completed && d.table.isUnreachable one &&
          !d.table.isPermanent one && match b.perform (.createObject ⟨0⟩ "late") with
            | .ok (_, e) => match e.runPurge none with
              | .ok (progress, _) => progress.completed
              | .error _ => false
            | .error _ => false
        | .error _ => false) = true := by
    decide +kernel
  obtain ⟨c, hr, htest⟩ := Reached.of_runs lingering_honest (by decide) hrun
  obtain ⟨stats, d, hd, htest⟩ := Collector.collect_of_leaves htest
  split at htest
  · rename_i progress b hb
    simp only [Bool.and_eq_true, Bool.not_eq_true'] at htest
    obtain ⟨⟨⟨hcut, hu⟩, hp⟩, htest⟩ := htest
    split at htest
    · rename_i reply e he
      split at htest
      · rename_i last f hf
        have hmutates : (Operation.createObject ⟨0⟩ "late").mutates = true := rfl
        have hcourse : Course d _ e := .mutate (.purge .start hb hcut) hmutates trivial he
        have hdooms : d.Dooms one := by
          cases ho : d.table.get? one with
          | none => simp [Table.isUnreachable, Table.has, ho] at hu
          | some o => exact ⟨o, ho, (Table.isUnreachable_of_get? ho).symm.trans hu, hp⟩
        obtain ⟨-, hcalls⟩ := Collector.destruction_protocol hr hd hcourse
        obtain ⟨-, -, hall⟩ := hcalls none last f hf
        exact ⟨c, d, e, f, stats, _, last, hr, hd, hcourse, hf, htest, hdooms,
          (hall htest one).mpr hdooms⟩
      · cases htest
    · cases htest
  · cases htest

open Sample in
/-- A collection also leaves the flag on an object that the permanent pool took in after an earlier
collection had flagged it. It is neither destroyed nor freed when the purge completes. -/
theorem flagged_yet_kept : ∃ (c d f : Collector) (stats : Statistics) (progress : Progress),
    Reached c ∧ c.collect .empty false = .ok (stats, d) ∧ d.table.isUnreachable one = true ∧
      d.runPurge none = .ok (progress, f) ∧ progress.completed = true ∧
      f.table.contains one = true ∧ f.journal.events = d.journal.events := by
  have hrun : Collector.runsPooled lingering (nodes 1 ++ [.collect .empty false]) [] (fun c =>
      c.leaves .empty false fun d =>
        d.table.isUnreachable one && match d.runPurge none with
          | .ok (progress, f) => progress.completed && f.table.contains one &&
            decide (f.journal.events = d.journal.events)
          | .error _ => false) = true := by
    decide +kernel
  obtain ⟨c, hc, -, htest⟩ :=
    Reached.of_runsPooled lingering_honest lingering_patient (by decide) rfl hrun
  obtain ⟨stats, d, hd, htest⟩ := Collector.collect_of_leaves htest
  obtain ⟨hu, htest⟩ := Bool.and_eq_true_iff.mp htest
  split at htest
  · rename_i progress f hf
    simp only [Bool.and_eq_true, decide_eq_true_eq] at htest
    exact ⟨c, d, f, stats, progress, hc, hd, hu, hf, htest.1.1, htest.1.2, htest.2⟩
  · cases htest

end TracingHeap
