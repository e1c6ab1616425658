import TracingHeap.Proofs.Purge.Pending
import TracingHeap.Proofs.Purge.Journal

namespace TracingHeap

theorem Table.isUnreachable_note {among : Handle → Prop} {t t' : Table} (hn : t.Notes among t')
    (g : Handle) : t'.isUnreachable g = t.isUnreachable g := by
  obtain ⟨h, o, f, -, ho, hu, -, rfl⟩ := hn
  have hget := get?_setFlag ho f g
  by_cases he : g = h
  · subst he
    rw [if_pos rfl] at hget
    rw [isUnreachable_of_get? hget, isUnreachable_of_get? ho, o.isUnreachable_set hu, hu]
  · rw [if_neg he] at hget
    rw [isUnreachable, has, hget, isUnreachable, has]

theorem Table.isUnreachable_annotates {among : Handle → Prop} {t t' : Table}
    (a : t.Annotates among t') (g : Handle) : t'.isUnreachable g = t.isUnreachable g := by
  induction a with
  | refl => rfl
  | tail _ hn ih => exact (isUnreachable_note hn g).trans ih

namespace Routing

variable {s : Schema} {r r' q : Routing} {o : Object} {l : Lifecycle} {ready : Bool} {h : Handle}

theorem about_begin (hne : o.handle ≠ h) :
    Event.about (r.begin o l).journal.events h = Event.about r.journal.events h := by
  unfold begin
  split
  · rfl
  · cases l.beginWord <;> simp [Journal.enter, Event.about, Event.object, hne]

theorem about_finish (hne : o.handle ≠ h) :
    Event.about (r.finish o l).journal.events h = Event.about r.journal.events h := by
  unfold finish
  split
  · rfl
  · cases l.finishWord <;> simp [Journal.enter, Event.about, Event.object, hne]

theorem about_ask (ha : r.ask o l = (ready, q)) (hne : o.handle ≠ h) :
    Event.about q.journal.events h = Event.about r.journal.events h := by
  rw [events_ask ha, Event.about_append, Event.about_other (fun e => Lifecycle.object_answer) hne.symm,
    List.nil_append]

/-- A move deals with a flagged object, and tells of no other. -/
theorem Move.silent (m : Move s r r') (hu : r.table.isUnreachable h = false) :
    Event.about r'.journal.events h = Event.about r.journal.events h := by
  have hne : ∀ {o : Object}, r.table.get? o.handle = some o → o.isUnreachable = true →
      o.handle ≠ h := by
    rintro o ho hflagged rfl
    rw [Table.isUnreachable_of_get? ho, hflagged] at hu
    cases hu
  cases m with
  | pass | look => rfl
  | wait _ ho hu _ _ ha => exact about_ask ha (hne ho hu)
  | park ho _ hu _ _ ha => exact (about_ask ha (hne ho hu)).trans (about_begin (hne ho hu))
  | release _ ho hu _ _ ha => exact (about_finish (hne ho hu)).trans (about_ask ha (hne ho hu))
  | destroy ho _ hu _ _ ha =>
    exact (about_finish (hne ho hu)).trans
      ((about_ask ha (hne ho hu)).trans (about_begin (hne ho hu)))

theorem Moves.silent (m : Moves s r r') (hu : r.table.isUnreachable h = false) :
    Event.about r'.journal.events h = Event.about r.journal.events h := by
  induction m with
  | refl => rfl
  | tail m hm ih =>
    have hsame := Table.isUnreachable_annotates (Moves.annotates m) h
    exact (hm.silent (hsame.trans hu)).trans ih

end Routing

namespace PurgeState

variable {s : Schema} {p q f : PurgeState} {progress : Progress} {h : Handle}

theorem Routes.silent (hq : Routes s p q) (hu : p.table.isUnreachable h = false) :
    Event.about q.journal.events h = Event.about p.journal.events h := by
  rcases hq.cases with ⟨-, rfl⟩ | ⟨-, r, hmoves, hrests⟩
  · rfl
  · rw [hrests.journal]
    exact Routing.Moves.silent hmoves hu

/-- A purge call tells of flagged objects only. -/
theorem Ran.silent (hr : Ran s p progress f) (hu : p.table.isUnreachable h = false) :
    Event.about f.journal.events h = Event.about p.journal.events h := by
  cases hr with
  | idle => rfl
  | routed _ hq => exact hq.silent hu
  | swept _ hq _ hw =>
    rw [hw.journal]
    exact hq.silent hu
  | done _ hq _ hw =>
    rw [hw.journal]
    exact hq.silent hu

end PurgeState

/-- What the table holds is the object as it was, at the stage of its destruction that it had come to, and
it is a root. -/
def Table.Guards (t : Table) (h : Handle) (o : Object) : Prop :=
  ∃ o', t.get? h = some o' ∧ o.SameStage o' ∧ o'.has .rootSet = true

namespace Collector

variable {b c d : Collector} {h : Handle} {o : Object} {op : Operation} {reply : Reply}
  {keep : Flags} {full : Bool} {stats : Statistics}

structure Guarded (h : Handle) (o : Object) (c d : Collector) : Prop where
  guards : d.table.Guards h o
  silent : Event.about d.journal.events h = Event.about c.journal.events h

theorem Guarded.trans (a : Guarded h o b c) (a' : Guarded h o c d) : Guarded h o b d :=
  ⟨a'.guards, a'.silent.trans a.silent⟩

/-- The lock and the count of missed attempts do not matter. -/
theorem Guarded.relocked {lock : CollectionLock} {misses : Nat}
    (a : Guarded h o (c.relocked lock misses) d) : Guarded h o c d :=
  ⟨a.guards, a.silent⟩

theorem runPurge_guarded (hc : c.Sound) (hs : c.Standing) {deadline : Option Deadline}
    {progress : Progress} (hok : c.runPurge deadline = .ok (progress, d))
    (hg : c.table.Guards h o) (hu : o.isUnreachable = false) : Guarded h o c d := by
  obtain ⟨o', ho', hsame, hroot⟩ := hg
  have hu' : o'.isUnreachable = false := hsame.unreachable.trans hu
  have hpurged := (runPurge_spec hc deadline).ok hok
  refine ⟨⟨o', hpurged.spares.same h o' ho' hu', hsame, hroot⟩, ?_⟩
  obtain ⟨p, hrun, rfl⟩ := runPurge_ok hok
  obtain ⟨hran, -⟩ := PurgeState.ran_of_run (p := c.pending) hs hrun
  exact hran.silent ((Table.isUnreachable_of_get? ho').trans hu')

theorem finishPurge_guarded (hc : c.Sound) (hs : c.Standing) {n : Nat}
    (hok : c.finishPurge = .ok (n, d)) (hg : c.table.Guards h o) (hu : o.isUnreachable = false) :
    Guarded h o c d := by
  obtain ⟨progress, hrun, -⟩ := finishPurge_ok hok
  exact runPurge_guarded hc hs hrun hg hu

/-- A root outside the pool is looked at by every mark, and so not flagged. -/
theorem condemn_guarded (hc : c.Sound) (hok : c.condemn keep = .ok (stats, d))
    (hg : c.table.Guards h o) (hu : o.isUnreachable = false) : Guarded h o c d := by
  obtain ⟨o₀, ho₀, hsame, hroot⟩ := hg
  have hu₀ : o₀.isUnreachable = false := hsame.unreachable.trans hu
  have hjournal : d.journal = c.journal := by
    obtain ⟨-, _, -, _, _, _, -, _, _, -, rfl, -⟩ := condemn_ok hok
    rfl
  obtain ⟨-, -, -, hcondemns⟩ := hc.condemned hok
  obtain ⟨t, hout, hdrops⟩ := condemn_outlasts hc hok
  obtain ⟨o₁, ho₁, hr, hperm⟩ := Table.Evolves.kept hout h o₀ ho₀
  obtain ⟨o₂, ho₂, hthin, -, hflags⟩ := hdrops.kept h o₁ ho₁
  have hhas : ∀ f, f ≠ .unreachable → f ≠ .reachableInCluster → f ≠ .noStrongReference →
      f ≠ .clusterRoot → o₂.has f = o₀.has f := by
    intro f h1 h2 h3 h4
    rw [Object.has, hflags]
    exact hr.flag f h1 h2 h3 h4
  have hu₂ : o₂.isUnreachable = false := by
    cases hp : c.table.isPermanent h with
    | true =>
      rw [Object.isUnreachable, Object.has, hflags, hperm hp]
      exact hu₀
    | false =>
      obtain ⟨p, hget, hup⟩ := hcondemns.seeds h o₀ ho₀ hp (by simp [Object.isSeed, hroot])
      rw [ho₂] at hget
      cases hget
      exact hup
  have hlasts : o₀.Same o₂ := ⟨hthin.handle.trans hr.handle, hthin.classId.trans hr.classId,
    hthin.name.trans hr.name⟩
  refine ⟨⟨o₂, ho₂, ⟨⟨hlasts.handle.trans hsame.handle, hlasts.classId.trans hsame.classId,
    hlasts.name.trans hsame.name⟩, hu₂.trans hu.symm, ?_, ?_⟩, ?_⟩, by rw [hjournal]⟩
  · exact (hhas _ (by decide) (by decide) (by decide) (by decide)).trans hsame.begun
  · exact (hhas _ (by decide) (by decide) (by decide) (by decide)).trans hsame.finished
  · exact (hhas _ (by decide) (by decide) (by decide) (by decide)).trans hroot

theorem collect_guarded (hc : c.Sound) (hs : c.Standing)
    (hok : c.collect keep full = .ok (stats, d)) (hg : c.table.Guards h o)
    (hu : o.isUnreachable = false) : Guarded h o c d := by
  obtain ⟨n, b, hfinish, found, m, hcondemn, freed, e, hend, -, rfl⟩ := collect_ok hok
  obtain ⟨hb, hidle⟩ := hs.first_phase hc hfinish
  have hfirst : Guarded h o c b := (finishPurge_guarded (c := c.relocked c.lock 0)
    (hc.relocked c.lock 0) hs hfinish hg hu).relocked
  have hmark := condemn_guarded hb.sound hcondemn hfirst.guards hu
  obtain ⟨hm, -⟩ := hb.sound.condemned hcondemn
  have hlast : Guarded h o m e := by
    cases full with
    | true => exact finishPurge_guarded hm (hidle.requested hcondemn).standing hend hmark.guards hu
    | false =>
      cases hend
      exact ⟨hmark.guards, rfl⟩
  obtain ⟨hguards, hsilent⟩ := (hfirst.trans hmark).trans hlast
  exact ⟨hguards, hsilent⟩

theorem perform_guarded (hc : c.Sound) (hs : c.Standing) (hop : op.collects = true) (hok : c.perform op = .ok (reply, d))
    (hg : c.table.Guards h o) (hu : o.isUnreachable = false) : Guarded h o c d := by
  obtain ⟨lock, misses, hcases⟩ := perform_collects hop hok
  have hc' := hc.relocked lock misses
  have hs' : (c.relocked lock misses).Standing := hs
  have hg' : (c.relocked lock misses).table.Guards h o := hg
  rcases hcases with rfl | ⟨keep, full, stats, hd⟩ | ⟨deadline, progress, hd⟩ | ⟨-, n, e, hd, rfl⟩
  · exact ⟨hg, rfl⟩
  · exact (collect_guarded hc' hs' hd hg' hu).relocked
  · exact (runPurge_guarded hc' hs' hd hg' hu).relocked
  · obtain ⟨hguards, hsilent⟩ := finishPurge_guarded hc' hs' hd hg' hu
    exact ⟨hguards, hsilent⟩

/-- A call leaves a root that is not flagged as it is, unless it takes it out of the roots. -/
theorem perform_guards (hc : c.Sound) (hs : c.Standing) (ha : op.Allowed c)
    (hne : op ≠ .removeRoot h) (hok : c.perform op = .ok (reply, d)) (hg : c.table.Guards h o)
    (hu : o.isUnreachable = false) : d.table.Guards h o := by
  cases hop : op.collects with
  | true => exact (perform_guarded hc hs hop hok hg hu).guards
  | false =>
    have hrespects := perform_respects hc ha hop hok
    obtain ⟨o', ho', hsame, hroot⟩ := hg
    obtain ⟨o'', ho'', hstage⟩ := hrespects.abides.kept h o' ho'
    refine ⟨o'', ho'', ⟨⟨hstage.handle.trans hsame.handle, hstage.classId.trans hsame.classId,
      hstage.name.trans hsame.name⟩, ?_, ?_, ?_⟩, hrespects.rooted h o' o'' hne ho' hroot ho''⟩
    · exact hstage.unreachable.trans hsame.unreachable
    · exact hstage.begun.trans hsame.begun
    · exact hstage.finished.trans hsame.finished

/-- No call tells of a root that is not flagged. -/
theorem perform_silent (hc : c.Sound) (hs : c.Standing) (ha : op.Allowed c) (hne : op ≠ .drain)
    (hok : c.perform op = .ok (reply, d)) (hg : c.table.Guards h o)
    (hu : o.isUnreachable = false) :
    Event.about d.journal.events h = Event.about c.journal.events h := by
  cases hop : op.collects with
  | true => exact (perform_guarded hc hs hop hok hg hu).silent
  | false => rw [(perform_respects hc ha hop hok).events hne]

theorem addRoot_guards (hroot : (c.addRoot h).1 = .ok ()) (ho : c.table.get? h = some o) :
    (c.addRoot h).2.table.Guards h o := by
  have hobject : c.object h = .ok o := by simp [object, ho]
  unfold addRoot at hroot ⊢
  rw [hobject] at hroot ⊢
  dsimp only at hroot ⊢
  split at hroot
  · cases hroot
  · rename_i hk
    rw [if_neg hk]
    refine ⟨o.set .rootSet, ?_, ?_, by simp⟩
    · rw [Table.get?_setFlag ho, if_pos rfl]
    · exact sameStage_insert o (m := .single .rootSet) (by decide)

end Collector

/-- Calls of which none takes an object out of the roots. -/
inductive Undisturbed (h : Handle) (c : Collector) : Collector → Prop where
  | start : Undisturbed h c c
  | step {d e : Collector} {op : Operation} {reply : Reply} : Undisturbed h c d → op.Allowed d →
      op ≠ .removeRoot h → d.perform op = .ok (reply, e) → Undisturbed h c e

theorem Undisturbed.reached {c d : Collector} {h : Handle} (hd : Undisturbed h c d)
    (hr : Reached c) : Reached d := by
  induction hd with
  | start => exact hr
  | step _ ha _ hok ih => exact ih.step ha hok

theorem Undisturbed.guards {c d : Collector} {h : Handle} {o : Object} (hd : Undisturbed h c d)
    (hr : Reached c) (hg : c.table.Guards h o) (hu : o.isUnreachable = false) :
    d.table.Guards h o := by
  induction hd with
  | start => exact hg
  | step hd ha hne hok ih =>
    have hreached := hd.reached hr
    exact Collector.perform_guards hreached.sound hreached.standing ha hne hok ih hu

/-- An object that is not flagged when it is made a root stays where it is, at the stage of its
destruction that it had come to, until it is taken out of the roots, and until then no call runs a hook
on it. Nothing is promised of an object that is flagged when it is made a root. -/
theorem Reached.root_is_kept {c d : Collector} {h : Handle} {o : Object} (hr : Reached c)
    (ho : c.table.get? h = some o) (hu : o.isUnreachable = false)
    (hroot : (c.addRoot h).1 = .ok ()) (hd : Undisturbed h (c.addRoot h).2 d) :
    d.table.Guards h o ∧ ∀ op reply e, op.Allowed d → op ≠ .drain →
      d.perform op = .ok (reply, e) →
        Event.about e.journal.events h = Event.about d.journal.events h := by
  have hallowed : (Operation.addRoot h).Allowed c := trivial
  have hrooted : Reached (c.addRoot h).2 := hr.step hallowed rfl
  have hguards := hd.guards hrooted (Collector.addRoot_guards hroot ho) hu
  have hreached := hd.reached hrooted
  refine ⟨hguards, fun op reply e ha hne hok => ?_⟩
  exact Collector.perform_silent hreached.sound hreached.standing ha hne hok hguards hu

open Collector Sample in
/-- A collection keeps an object that nothing refers to, once it is a root. -/
theorem root_is_kept_alone : ∃ (c d : Collector) (o : Object) (reply : Reply), Reached c ∧
    (c.addRoot one).1 = .ok () ∧ (c.addRoot one).2.perform (.collect .empty true) = .ok (reply, d) ∧
      d.table.Guards one o := by
  have hrun : runs .serial node (nodes 1) (fun c =>
      (c.table.get? one).any (!·.isUnreachable) && ((c.addRoot one).1 matches .ok _) &&
        ((c.addRoot one).2.perform (.collect .empty true) matches .ok _)) = true := by
    decide +kernel
  obtain ⟨c, hr, hc⟩ := Reached.of_runs node_honest (by decide) hrun
  simp only [Bool.and_eq_true] at hc
  obtain ⟨⟨hawake, hroot⟩, hcollect⟩ := hc
  obtain ⟨o, ho, hu⟩ := (Option.any_eq_true _ _).mp hawake
  split at hroot
  · split at hcollect
    · rename_i hrooted _ found hfound
      obtain ⟨reply, d⟩ := found
      have hallowed : (Operation.collect .empty true).Allowed (c.addRoot one).2 := trivial
      have hd : Undisturbed one (c.addRoot one).2 d :=
        Undisturbed.start.step hallowed (by simp) hfound
      have hkept := hr.root_is_kept ho (by simpa using hu) hrooted hd
      exact ⟨c, d, o, reply, hr, hrooted, hfound, hkept.1⟩
    · cases hcollect
  · cases hroot

open Collector Sample in
/-- A collection has flagged an object and left it to a later purge. It is made a root after that, and the
purge frees it. -/
theorem rooted_yet_freed : ∃ (b c d : Collector) (progress : Progress), Reached b ∧
    b.addRoot one = (.ok (), c) ∧ c.runPurge none = .ok (progress, d) ∧ d.table.get? one = none := by
  have hrun : runs .serial node (nodes 1 ++ [.collect .empty false]) (fun b =>
      ((b.addRoot one).1 matches .ok _) && match (b.addRoot one).2.runPurge none with
        | .ok (_, d) => (d.table.get? one).isNone
        | .error _ => false) = true := by
    decide +kernel
  obtain ⟨b, hr, hb⟩ := Reached.of_runs node_honest (by decide) hrun
  obtain ⟨hroot, hpurge⟩ := Bool.and_eq_true_iff.mp hb
  split at hroot
  · split at hpurge
    · rename_i hu _ progress d hd
      exact ⟨b, _, d, progress, hr, Prod.ext hu rfl, hd, Option.isNone_iff_eq_none.mp hpurge⟩
    · cases hpurge
  · cases hroot

end TracingHeap
