import Mathlib.Data.Prod.Lex
import Mathlib.Order.WellFounded
import TracingHeap.Proofs.Purge.Pieces

namespace TracingHeap

namespace Table

variable {t t' : Table} {h : Handle} {among : Handle → Prop}

/-- The last stage of the destruction of an object has been routed. An object that is not there any more
has been through it. -/
def Finished (t : Table) (h : Handle) : Prop :=
  ∀ o, t.get? h = some o → o.has .finishDestroyed = true

theorem Annotates.finished (a : Annotates among t t') (hf : t.Finished h) : t'.Finished h := by
  induction a with
  | refl => exact hf
  | tail _ hn ih =>
    obtain ⟨g, o, f, -, ho, -, -, rfl⟩ := hn
    intro p hp
    rw [get?_setFlag ho] at hp
    split at hp
    · rename_i he
      cases hp
      simp [ih o (he ▸ ho)]
    · exact ih p hp

end Table

namespace Routing

variable {s : Schema} {d : Deadline} {r r' q : Routing} {g h : Handle} {i e : Nat}

/-- A move leaves a parked object as it is, or the destruction of the object has finished. -/
theorem Move.parked_or_finished (m : Move s r r') (hr : r.Stands) (hh : h ∈ r.parked) :
    h ∈ r'.parked ∧ r'.table.get? h = r.table.get? h ∨ r'.table.Finished h := by
  cases m with
  | pass | look => exact .inl ⟨hh, rfl⟩
  | wait _ _ _ _ _ ha =>
    obtain ⟨htable, -, hparked, -⟩ := ask_frame ha
    exact .inl ⟨hparked ▸ hh, by rw [htable]⟩
  | @park q o ho hi hu hb _ ha =>
    obtain ⟨htable, -, hparked, -⟩ := ask_frame ha
    obtain ⟨-, hparked', -⟩ := begin_frame r o (s.lifecycle o.classId)
    have hne : h ≠ o.handle := fun he => hr.not_parked ho hb (he ▸ hh)
    refine .inl ⟨?_, ?_⟩
    · change h ∈ q.parked.push o.handle
      rw [hparked, hparked']
      exact Array.mem_push.mpr (.inl hh)
    · change q.table.get? h = _
      rw [htable, table_begin hb, Table.get?_setFlag ho, if_neg hne]
  | @destroy q o ho hi hu hb hf ha =>
    obtain ⟨htable, -, hparked, -⟩ := ask_frame ha
    obtain ⟨-, hparked', -⟩ := begin_frame r o (s.lifecycle o.classId)
    obtain ⟨-, hparked'', -⟩ := finish_frame q o (s.lifecycle o.classId)
    have hne : h ≠ o.handle := fun he => hr.not_parked ho hb (he ▸ hh)
    refine .inl ⟨?_, ?_⟩
    · change h ∈ (finish _ _ _).parked
      rwa [hparked'', hparked, hparked']
    · change (finish _ _ _).table.get? h = _
      rw [table_finish hf, htable, table_begin hb, Table.get?_setFlag_setFlag ho, if_neg hne]
  | @release q o i hi ho hu hb hf ha =>
    obtain ⟨htable, -, hparked, -⟩ := ask_frame ha
    obtain ⟨-, hparked', -⟩ := finish_frame q o (s.lifecycle o.classId)
    by_cases he : h = o.handle
    · right
      intro p hp
      change (finish _ _ _).table.get? h = _ at hp
      rw [table_finish hf, htable, Table.get?_setFlag ho, if_pos he] at hp
      cases hp
      simp
    · refine .inl ⟨?_, ?_⟩
      · change h ∈ swapRemove (finish _ _ _).parked i
        have hm := Array.mem_toList_iff.mpr hh
        rw [(perm_swapRemove hi).mem_iff, List.mem_cons] at hm
        rw [hparked', hparked]
        exact Array.mem_toList_iff.mp (hm.resolve_left he)
      · change (finish _ _ _).table.get? h = _
        rw [table_finish hf, htable, Table.get?_setFlag ho, if_neg he]

/-- An object that has finished is not parked. -/
theorem Stands.not_finished (hr : r.Stands) (hh : h ∈ r.parked) : ¬ r.table.Finished h := by
  obtain ⟨o, ho, -, -, hf⟩ := hr.underway.waiting h hh
  intro hfinished
  rw [hfinished o ho] at hf
  cases hf

theorem Moves.parked_or_finished (m : Moves s r r') (hr : r.Stands) (hh : h ∈ r.parked) :
    h ∈ r'.parked ∧ r'.table.get? h = r.table.get? h ∨ r'.table.Finished h := by
  induction m with
  | refl => exact .inl ⟨hh, rfl⟩
  | @tail q r' hm hlast ih =>
    rcases ih with ⟨hq, hsame⟩ | hfinished
    · exact (hlast.parked_or_finished (Moves.stands hm hr) hq).imp_left fun ⟨hm, he⟩ => ⟨hm, he.trans hsame⟩
    · exact .inr (hlast.annotates_all.finished hfinished)

theorem Move.gateOpen (m : Move s r r') : r'.journal.gateOpen = r.journal.gateOpen := by
  cases m with
  | pass | look => rfl
  | wait _ _ _ _ _ ha => exact (ask_frame ha).2.2.2
  | @park q o _ _ _ _ _ ha =>
    exact (ask_frame ha).2.2.2.trans (begin_frame r o (s.lifecycle o.classId)).2.2.1
  | @destroy q o _ _ _ _ _ ha =>
    exact (finish_frame q o (s.lifecycle o.classId)).2.2.1.trans
      ((ask_frame ha).2.2.2.trans (begin_frame r o (s.lifecycle o.classId)).2.2.1)
  | @release q o _ _ _ _ _ _ ha =>
    exact (finish_frame q o (s.lifecycle o.classId)).2.2.1.trans (ask_frame ha).2.2.2

theorem Moves.gateOpen (m : Moves s r r') : r'.journal.gateOpen = r.journal.gateOpen := by
  induction m with
  | refl => rfl
  | tail _ hlast ih => exact hlast.gateOpen.trans ih

theorem size_swapRemove (a : Array Handle) (i : Nat) : (swapRemove a i).size = a.size - 1 := by
  simp [swapRemove]

/-- Asking adds nothing to the list, and it does not look at the clock. -/
theorem retry_frame (s : Schema) (r : Routing) (i : Nat) :
    (retry s r i).2.parked.size ≤ r.parked.size ∧ (retry s r i).2.looks = r.looks := by
  have hask : ∀ o l, (r.ask o l).2.parked = r.parked ∧ (r.ask o l).2.looks = r.looks := by
    intro o l
    unfold ask
    split <;> exact ⟨rfl, rfl⟩
  have hfinish : ∀ (q : Routing) o l,
      (q.finish o l).parked = q.parked ∧ (q.finish o l).looks = q.looks := by
    intro q o l
    unfold finish
    split <;> exact ⟨rfl, rfl⟩
  unfold retry
  split
  · exact ⟨Nat.le_refl _, rfl⟩
  · rename_i h _
    split
    · exact ⟨by simp [size_swapRemove], rfl⟩
    · rename_i o _
      obtain ⟨hparked, hlooks⟩ := hask o (s.lifecycle o.classId)
      obtain ⟨hparked', hlooks'⟩ := hfinish (r.ask o (s.lifecycle o.classId)).2 o
        (s.lifecycle o.classId)
      dsimp only
      split
      · refine ⟨?_, hlooks'.trans hlooks⟩
        dsimp only
        rw [size_swapRemove, hparked', hparked]
        exact Nat.sub_le _ _
      · exact ⟨Nat.le_of_eq (congrArg Array.size hparked), hlooks⟩

theorem size_retryFrom (deadline : Option Deadline) (left : Nat) : ∀ (seen i : Nat) (r : Routing),
    (retryFrom s deadline left seen i r).2.parked.size ≤ r.parked.size := by
  induction left with
  | zero => exact fun _ _ _ => Nat.le_refl _
  | succ left ih =>
    intro seen i r
    have hle := (retry_frame s r i).1
    rw [retryFrom]
    dsimp only
    split
    · split
      · exact hle
      · exact (ih _ _ _).trans hle
    · exact (ih _ _ _).trans hle

/-- The objects from index `i` up to index `e` have been asked once, and none of them was ready. The end
of the list has been reached, or the clock has told to stop. -/
structure Rounds (s : Schema) (d : Deadline) (i e : Nat) (r r' : Routing) : Prop where
  parked : r'.parked = r.parked
  count : ∀ j h, r.parked[j]? = some h →
    r'.journal.pollCount h = r.journal.pollCount h + if i ≤ j ∧ j < e then 1 else 0
  owed : ∀ j h n, r.parked[j]? = some h → i ≤ j → j < e →
    s.due r.table r.journal h = some n → r'.journal.pollCount h < n
  ended : e = r.parked.size ∨ ∃ m, e = 10 * m + 1 ∧ d.passed m = true
  ahead : i ≤ e

theorem Stands.index_inj (hr : r.Stands) {j : Nat} (hi : r.parked[i]? = some h)
    (hj : r.parked[j]? = some h) : i = j := by
  rw [← Array.getElem?_toList] at hi hj
  obtain ⟨hlt, -⟩ := List.getElem?_eq_some_iff.mp hi
  exact (List.getElem?_inj hlt hr.underway.distinct).mp (hi.trans hj.symm)

/-- The pass is over. -/
theorem Rounds.stopped (hstop : i = r.parked.size ∨ ∃ m, i = 10 * m + 1 ∧ d.passed m = true)
    (hparked : r'.parked = r.parked) (hjournal : r'.journal = r.journal) : Rounds s d i i r r' := by
  refine ⟨hparked, fun j h _ => ?_, fun j h n _ hlow hhigh => ?_, hstop, Nat.le_refl i⟩
  · rw [hjournal, if_neg (by omega)]
    rfl
  · omega

/-- One object is asked and stays, and then the others are. -/
theorem Rounds.stay (hr : r.Stands) (hi : r.parked[i]? = some h) (hasks : Asks s h r q)
    (hstays : Stays s h r q) (hq : Rounds s d (i + 1) e q r') : Rounds s d i e r r' := by
  have hne : ∀ {j : Nat} {g : Handle}, r.parked[j]? = some g → j ≠ i → g ≠ h :=
    fun hj hji he => hji (hr.index_inj hj (he ▸ hi))
  have hahead := hq.ahead
  refine ⟨hq.parked.trans hstays.parked, fun j g hj => ?_, fun j g n hj hlow hhigh hn => ?_,
    hstays.parked ▸ hq.ended, by omega⟩
  · have hcount := hq.count j g (hstays.parked ▸ hj)
    by_cases hji : j = i
    · subst hji
      cases hi.symm.trans hj
      rw [hcount, hstays.count, if_neg (by omega), if_pos (by omega)]
    · rw [hcount, hasks.count g (hne hj hji)]
      split <;> split <;> omega
  · have hcount := hq.count j g (hstays.parked ▸ hj)
    by_cases hji : j = i
    · subst hji
      cases hi.symm.trans hj
      rw [hcount, if_neg (by omega)]
      exact hstays.owed n hn
    · refine hq.owed j g n (hstays.parked ▸ hj) (by omega) hhigh ?_
      rw [hasks.due g (hne hj hji)]
      exact hn

/-- A pass that takes the object out that it asks first leaves fewer. -/
theorem retryFrom_shrinks {left : Nat} (hless : (retry s r i).2.parked.size < r.parked.size) :
    (retryFrom s (some d) (left + 1) i i r).2.parked.size < r.parked.size := by
  rw [retryFrom]
  dsimp only
  split
  · split
    · exact hless
    · exact Nat.lt_of_le_of_lt (size_retryFrom _ _ _ _ _) hless
  · exact Nat.lt_of_le_of_lt (size_retryFrom _ _ _ _ _) hless

theorem Asks.look (hasks : Asks s h r q) : Asks s h r { q with looks := q.looks + 1 } :=
  ⟨.tail hasks.moves .look, hasks.cursor, hasks.due, hasks.count⟩

theorem Stays.look (hstays : Stays s h r q) : Stays s h r { q with looks := q.looks + 1 } :=
  ⟨hstays.parked, hstays.present, hstays.due, hstays.count, hstays.owed⟩

/-- A pass takes an object out of the list, or it asks the objects in their order until it is stopped. -/
theorem retryFrom_rounds (d : Deadline) (left : Nat) : ∀ (i : Nat) (r : Routing), r.Stands →
    left + i = r.parked.size → r.looks = (i + 9) / 10 →
      (retryFrom s (some d) left i i r).2.parked.size < r.parked.size ∨
        ∃ e, Rounds s d i e r (retryFrom s (some d) left i i r).2 := by
  induction left with
  | zero =>
    intro i r _ hsize _
    refine .inr ⟨i, rfl, fun j h hj => ?_, fun j h n hj _ _ _ => ?_, .inl (by omega),
      Nat.le_refl _⟩
    · rw [if_neg (by omega)]
      rfl
    · omega
  | succ left ih =>
    intro i r hr hsize hlooks
    obtain ⟨h, hi⟩ : ∃ h, r.parked[i]? = some h := ⟨_, Array.getElem?_eq_getElem (by omega)⟩
    obtain ⟨hasks, hcases⟩ := retry_cases (s := s) hr hi
    obtain ⟨-, hlooks'⟩ := retry_frame s r i
    rcases hcases with ⟨-, hswap, -⟩ | ⟨hindex, hstays⟩
    · refine .inl (retryFrom_shrinks ?_)
      rw [hswap, size_swapRemove]
      omega
    · have hrest : ∀ q : Routing, Asks s h r q → Stays s h r q → q.looks = (i + 1 + 9) / 10 →
          (retryFrom s (some d) left (i + 1) (i + 1) q).2.parked.size < r.parked.size ∨
            ∃ e, Rounds s d i e r (retryFrom s (some d) left (i + 1) (i + 1) q).2 := by
        intro q hasks hstays hq
        have hsize' : left + (i + 1) = q.parked.size := by
          rw [hstays.parked]
          omega
        rcases ih (i + 1) q (hasks.moves.stands hr) hsize' hq with hless | ⟨e, hrounds⟩
        · exact .inl (hstays.parked ▸ hless)
        · exact .inr ⟨e, hrounds.stay hr hi hasks hstays⟩
      rw [retryFrom]
      dsimp only
      rw [hindex]
      split
      · rename_i hseen
        change i % 10 = 0 at hseen
        split
        · rename_i hstop
          change d.passed _ = true at hstop
          rw [hlooks', hlooks] at hstop
          have hover : i + 1 = 10 * ((i + 9) / 10) + 1 := by omega
          exact .inr ⟨i + 1, .stay hr hi hasks.look hstays.look
            (.stopped (.inr ⟨(i + 9) / 10, hover, hstop⟩) rfl rfl)⟩
        · refine hrest _ hasks.look hstays.look ?_
          change (retry s r i).2.looks + 1 = _
          omega
      · rename_i hseen
        change ¬ i % 10 = 0 at hseen
        exact hrest _ hasks hstays (by rw [hlooks', hlooks]; omega)

/-- A pass whose first object is never ready, stopped at the first look at the clock, asks that object
and no other. -/
theorem retryFrom_front (hr : r.Stands) (hg : r.parked[0]? = some g)
    (hnever : s.due r.table r.journal g = none) (hlooks : r.looks = 0) (hd : d.passed 0 = true)
    (left : Nat) : Rounds s d 0 1 r (retryFrom s (some d) (left + 1) 0 0 r).2 := by
  obtain ⟨hasks, hcases⟩ := retry_cases (s := s) hr hg
  have hstays : Stays s g r (retry s r 0).2 := by
    rcases hcases with ⟨-, -, n, hn⟩ | ⟨-, hstays⟩
    · rw [hnever] at hn
      cases hn
    · exact hstays
  have hstop : mustStop (some d) (retry s r 0).2.looks = true := by
    rw [(retry_frame s r 0).2, hlooks]
    exact hd
  rw [retryFrom]
  dsimp only
  rw [if_pos (Nat.zero_mod _), if_pos hstop]
  exact Rounds.stay hr hg ⟨.tail hasks.moves .look, hasks.cursor, hasks.due, hasks.count⟩
    ⟨hstays.parked, hstays.present, hstays.due, hstays.count, hstays.owed⟩
    (.stopped (.inr ⟨0, rfl, hd⟩) rfl rfl)

end Routing

namespace PurgeState

variable {s : Schema} {d : Deadline} {deadline : Option Deadline} {p q f : PurgeState}
  {progress : Progress} {h : Handle}

/-- A purge with something parked is in its first phase. -/
theorem underway_of_parked (hp : p.purge.Stands p.table) (hh : h ∈ p.purge.parked) :
    p.purge.required = true ∧ p.purge.routed = false := by
  have hne : p.purge.parked ≠ #[] := fun he => Array.not_mem_empty h (he ▸ hh)
  cases hreq : p.purge.required with
  | false => exact absurd (hp.idle hreq).1 hne
  | true =>
    refine ⟨rfl, ?_⟩
    cases hrouted : p.purge.routed with
    | false => rfl
    | true => exact absurd (hp.ripe hreq hrouted).1 hne

theorem Sweeps.finished {looks : Nat} {ended : Bool} {w : Sweep} (hw : Sweeps looks q f ended w)
    (hq : q.table.Finished h) : f.table.Finished h := by
  intro o ho
  rw [hw.table, hw.clears.get] at ho
  split at ho
  · cases ho
  · exact hq o ho

theorem Routes.finished (hq : Routes s p q) (hp : p.table.Finished h) : q.table.Finished h := by
  rcases hq.cases with ⟨-, rfl⟩ | ⟨-, r, hmoves, hrests⟩
  · exact hp
  · rw [hrests.table]
    exact (Routing.Moves.annotates hmoves).finished hp

/-- What has finished stays so. -/
theorem Ran.finished (hr : Ran s p progress f) (hp : p.table.Finished h) : f.table.Finished h := by
  cases hr with
  | idle => exact hp
  | routed _ hq => exact hq.finished hp
  | swept _ hq _ hw => exact hw.finished (hq.finished hp)
  | done _ hq _ hw => exact hw.finished (hq.finished hp)

/-- A call that goes on with the first phase. If it does not bring the phase to its end, it does no
more. -/
theorem run_underway (hp : p.purge.Stands p.table) (hreq : p.purge.required = true)
    (hrouted : p.purge.routed = false) (hok : run s deadline p = .ok (progress, f)) :
    ∃ q r cut, Routing.Moves s p.routing r ∧ Rests r q ∧ Walked s deadline p q cut r ∧
      (q.purge.routed = false → f = q) ∧ ∀ h, q.table.Finished h → f.table.Finished h := by
  obtain ⟨-, hrouted', -⟩ := p.purge.placeCursor_frame p.table
  rw [run_eq hreq] at hok
  obtain ⟨⟨cut, looks, q⟩, hfirst, hlate⟩ := except_bind_ok hok
  obtain ⟨⟨ended, g⟩, hsecond, hend⟩ := except_bind_ok hlate
  have hq := (firstPhase_routes hp hreq hfirst).1.stands hp hreq
  unfold firstPhase at hfirst
  rw [if_neg (by simp [hrouted', hrouted])] at hfirst
  obtain ⟨hreq', -, r, hmoves, hrests, hwalked⟩ := route_walked hp hreq hrouted hfirst
  refine ⟨q, r, cut, hmoves, hrests, hwalked, ?_⟩
  by_cases hgo : (q.purge.routed && !cut) = true
  · obtain ⟨hover, hcut⟩ := Bool.and_eq_true_iff.mp hgo
    rw [Bool.not_eq_true'] at hcut
    subst hcut
    obtain ⟨ended', g', w, hsecond', hsweeps, -⟩ := secondPhase_sweeps hq hreq' hover deadline looks
    rw [hsecond] at hsecond'
    cases hsecond'
    refine ⟨fun h => ?_, fun h hfinished => ?_⟩
    · rw [hover] at h
      cases h
    · have hg := hsweeps.finished hfinished
      cases hend
      split <;> exact hg
  · unfold secondPhase at hsecond
    rw [if_neg hgo] at hsecond
    cases hsecond
    cases hend
    exact ⟨fun _ => rfl, fun _ hfinished => hfinished⟩

/-- With an object left in the list the first phase is not over. -/
theorem Rests.routed_eq_false {r : Routing} (hq : Rests r q) (hh : h ∈ r.parked) :
    q.purge.routed = false := by
  rcases hq.cases with ⟨hrouted, -⟩ | ⟨-, -, hempty, -⟩
  · exact hrouted
  · exact absurd (hempty ▸ hh) (Array.not_mem_empty h)

/-- How far a purge still is from finishing one parked object: the slots that the walk has still to go
through, the parked objects, and how often the object has still to be asked. -/
def toil (s : Schema) (h : Handle) (p : PurgeState) : ℕ ×ₗ ℕ ×ₗ ℕ :=
  toLex (p.left, toLex (p.purge.parked.size, p.routing.owed s h))

/-- A call has brought nothing about for a parked object: it has asked the first object of the list, which
was not ready, and was stopped before it came to the object. -/
structure Stalls (s : Schema) (h : Handle) (d : Deadline) (p f : PurgeState) : Prop where
  parked : f.purge.parked = p.purge.parked
  front : ∃ g, p.purge.parked[0]? = some g ∧
    s.due f.table f.journal g = s.due p.table p.journal g ∧
    f.journal.pollCount g = p.journal.pollCount g + 1 ∧
    ∀ n, s.due p.table p.journal g = some n → f.journal.pollCount g < n
  stopped : ∀ i, p.purge.parked[i]? = some h → ∃ m, 10 * m < i ∧ d.passed m = true

/-- What is left of the toil for an object that is ready some time. -/
theorem toil_eq {n : Nat} (hn : s.due q.table q.journal h = some n) : q.toil s h =
    toLex (q.left, toLex (q.purge.parked.size, n - q.journal.pollCount h)) := by
  rw [toil, Routing.owed, Routing.wait_eq]
  change toLex (q.left, toLex (_, (s.due q.table q.journal h).getD 0 - _)) = _
  rw [hn]
  rfl

/-- A call whose pass has taken no object out of the list: it has asked the first `e` of the parked
objects once, and they were not ready. -/
structure Asked (s : Schema) (d : Deadline) (e : Nat) (p f : PurgeState) : Prop where
  parked : f.purge.parked = p.purge.parked
  due : ∀ g ∈ p.purge.parked, s.due f.table f.journal g = s.due p.table p.journal g
  count : ∀ j g, p.purge.parked[j]? = some g →
    f.journal.pollCount g = p.journal.pollCount g + if j < e then 1 else 0
  owed : ∀ j g n, p.purge.parked[j]? = some g → j < e →
    s.due p.table p.journal g = some n → f.journal.pollCount g < n
  ended : e = p.purge.parked.size ∨ ∃ m, e = 10 * m + 1 ∧ d.passed m = true

theorem asked_of_rounds {r : Routing} {e : Nat} (hr : p.routing.Stands)
    (hmoves : Routing.Moves s p.routing r) (hrests : Rests r f)
    (hrounds : Routing.Rounds s d 0 e p.routing r) : Asked s d e p f := by
  have hparked : p.routing.parked = p.purge.parked := (p.purge.placeCursor_frame p.table).2.2.1
  refine ⟨hrests.parked.trans (hrounds.parked.trans hparked), fun g hg => ?_, fun j g hj => ?_,
    fun j g n hj he hn => ?_, hparked ▸ hrounds.ended⟩
  · rw [← hparked] at hg
    have hget := (hmoves.parked_or_finished hr hg).resolve_right
      ((hmoves.stands hr).not_finished (hrounds.parked ▸ hg))
    rw [hrests.table, hrests.journal]
    exact Schema.due_congr hget.2 hmoves.gateOpen
  · have hcount := hrounds.count j g (hparked ▸ hj)
    simp only [Nat.zero_le, true_and] at hcount
    rw [hrests.journal]
    exact hcount
  · rw [hrests.journal]
    exact hrounds.owed j g n (hparked ▸ hj) (Nat.zero_le j) he hn

/-- A pass that has not come to a parked object was stopped before. -/
theorem Asked.stalls {e i : Nat} (a : Asked s d e p f) (hr : p.routing.Stands)
    (hi : p.purge.parked[i]? = some h) (hie : e ≤ i) : Stalls s h d p f := by
  have hsize : i < p.purge.parked.size := (Array.getElem?_eq_some_iff.mp hi).1
  obtain ⟨m, he, hm⟩ := a.ended.resolve_left (by omega)
  obtain ⟨g, hg⟩ : ∃ g, p.purge.parked[0]? = some g := ⟨_, Array.getElem?_eq_getElem (by omega)⟩
  have hfront := a.count 0 g hg
  rw [if_pos (by omega)] at hfront
  refine ⟨a.parked, ⟨g, hg, a.due g (Array.mem_of_getElem? hg), hfront,
    fun n hn => a.owed 0 g n hg (by omega) hn⟩, fun j hj => ⟨m, ?_, hm⟩⟩
  have hparked : p.routing.parked = p.purge.parked := (p.purge.placeCursor_frame p.table).2.2.1
  rw [← hparked] at hi hj
  have hsame := hr.index_inj hj hi
  omega

/-- A pass that takes no object out of the list comes to a parked object, and less is left to be waited
for, or it is stopped before. -/
theorem toil_of_rounds {r : Routing} {e n : Nat} (hr : p.routing.Stands) (hh : h ∈ p.purge.parked)
    (hmoves : Routing.Moves s p.routing r) (hrests : Rests r f) (hleft : f.left = p.left)
    (hn : s.due p.table p.journal h = some n) (hrounds : Routing.Rounds s d 0 e p.routing r) :
    f.toil s h < p.toil s h ∨ f.toil s h = p.toil s h ∧ Stalls s h d p f := by
  have a := asked_of_rounds hr hmoves hrests hrounds
  obtain ⟨i, hi⟩ := Array.mem_iff_getElem?.mp hh
  have hcount := a.count i h hi
  rw [toil_eq hn, toil_eq ((a.due h hh).trans hn), hleft, a.parked]
  by_cases hie : i < e
  · left
    have hless := a.owed i h n hi hie hn
    rw [if_pos hie] at hcount
    exact .right _ (.right _ (by omega))
  · right
    rw [if_neg hie, Nat.add_zero] at hcount
    exact ⟨by rw [hcount], a.stalls hr hi (by omega)⟩

/-- A call with a deadline finishes a parked object that is ready some time, or comes nearer to it, or it
is stopped before it comes to the object. -/
theorem run_gains (hp : p.purge.Stands p.table) (hh : h ∈ p.purge.parked) {n : Nat}
    (hn : s.due p.table p.journal h = some n)
    (hok : run s (some d) p = .ok (progress, f)) : f.table.Finished h ∨
      h ∈ f.purge.parked ∧ s.due f.table f.journal h = some n ∧
        (f.toil s h < p.toil s h ∨ f.toil s h = p.toil s h ∧ Stalls s h d p f) := by
  obtain ⟨hreq, hstart⟩ := underway_of_parked hp hh
  have hr := routing_stands hp hreq hstart
  have hparked : p.routing.parked = p.purge.parked := (p.purge.placeCursor_frame p.table).2.2.1
  obtain ⟨q, r, cut, hmoves, hrests, hwalked, hstay, hover⟩ := run_underway hp hreq hstart hok
  rcases hmoves.parked_or_finished hr (hparked.symm ▸ hh) with ⟨hm, hsame⟩ | hfinished
  swap
  · exact .inl (hover h (hrests.table ▸ hfinished))
  have hrouted := hrests.routed_eq_false hm
  cases hstay hrouted
  have hleft := (hrests.routing (s := s) hrouted).1
  have hdue : s.due f.table f.journal h = some n := by
    rw [hrests.table, hrests.journal]
    exact (Schema.due_congr hsame hmoves.gateOpen).trans hn
  refine .inr ⟨hrests.parked ▸ hm, hdue, ?_⟩
  have hnear : f.left < p.left → f.toil s h < p.toil s h := fun hless => Prod.Lex.left _ _ hless
  cases hwalked with
  | cut _ _ hless => exact .inl (hnear (hleft ▸ hless))
  | @through w r cut _ hzero hsettle hover _ =>
    by_cases hz : p.left = 0
    · have hleft' : f.left = p.left := by omega
      rw [hzero hz] at hsettle
      have hpass : (Routing.retryFrom s (some d) p.routing.parked.size 0 0 p.routing).2 = r :=
        congrArg Prod.snd (Except.ok.inj hsettle)
      have hrounds := Routing.retryFrom_rounds (s := s) d p.routing.parked.size 0 p.routing hr rfl rfl
      rw [hpass] at hrounds
      rcases hrounds with hless | ⟨e, hrounds⟩
      · left
        rw [← hrests.parked, hparked] at hless
        unfold toil
        rw [hleft']
        exact .right _ (.left _ _ hless)
      · exact toil_of_rounds hr hh hmoves hrests hleft' hn hrounds
    · exact .inl (hnear (by omega))

/-- A call stopped at its first look at the clock, with an object in front that is never ready, leaves the
list as it is. -/
theorem run_held (hp : p.purge.Stands p.table) {g : Handle} (hg : p.purge.parked[0]? = some g)
    (hnever : s.due p.table p.journal g = none) (hleft : p.left = 0) (hd : d.passed 0 = true)
    (hok : run s (some d) p = .ok (progress, f)) :
    f.purge.parked = p.purge.parked ∧ s.due f.table f.journal g = none ∧ f.left = 0 := by
  obtain ⟨hreq, hstart⟩ := underway_of_parked hp (Array.mem_of_getElem? hg)
  have hr := routing_stands hp hreq hstart
  have hparked : p.routing.parked = p.purge.parked := (p.purge.placeCursor_frame p.table).2.2.1
  obtain ⟨q, r, cut, hmoves, hrests, hwalked, hstay, -⟩ := run_underway hp hreq hstart hok
  cases hwalked with
  | cut _ _ hless => omega
  | @through w r cut _ hzero hsettle hover _ =>
    rw [hzero hleft] at hsettle
    have hpass : (Routing.retryFrom s (some d) p.routing.parked.size 0 0 p.routing).2 = r :=
      congrArg Prod.snd (Except.ok.inj hsettle)
    have hsize : p.routing.parked.size = p.routing.parked.size - 1 + 1 := by
      have := (Array.getElem?_eq_some_iff.mp hg).1
      rw [hparked]
      omega
    have hrounds := Routing.retryFrom_front hr (hparked ▸ hg) hnever rfl hd
      (p.routing.parked.size - 1)
    rw [← hsize, hpass] at hrounds
    have hm : g ∈ r.parked := by
      rw [hrounds.parked, hparked]
      exact Array.mem_of_getElem? hg
    have hrouted := hrests.routed_eq_false hm
    cases hstay hrouted
    have hget := (hmoves.parked_or_finished hr (hrounds.parked ▸ hm)).resolve_right
      ((hmoves.stands hr).not_finished hm)
    refine ⟨hrests.parked.trans (hrounds.parked.trans hparked), ?_, ?_⟩
    · rw [hrests.table, hrests.journal]
      exact (Schema.due_congr hget.2 hmoves.gateOpen).trans hnever
    · rw [(hrests.routing (s := s) hrouted).1]
      omega

/-- An object that has finished is not parked. -/
theorem not_finished_of_parked (hp : p.purge.Stands p.table) (hh : h ∈ p.purge.parked) :
    ¬ p.table.Finished h := by
  obtain ⟨hreq, hrouted⟩ := underway_of_parked hp hh
  apply (routing_stands hp hreq hrouted).not_finished
  rwa [show p.routing.parked = p.purge.parked from (p.purge.placeCursor_frame p.table).2.2.1]

end PurgeState

namespace Collector

variable {c : Collector} {limits : Nat → Deadline} {h : Handle} {n : Nat}

/-- The collector after the first `k` of a sequence of purge calls, each with a deadline. -/
def afterCalls (c : Collector) (limits : Nat → Deadline) : Nat → Collector
  | 0 => c
  | k + 1 =>
    let d := c.afterCalls limits k
    (d.runPurge (some (limits k))).toOption.elim d (·.2)

/-- From some call on, the list of parked objects stays as it is, an object that is never ready stands
first in it, and every call is stopped before it comes to the object. -/
def Starves (c : Collector) (limits : Nat → Deadline) (h : Handle) : Prop :=
  ∃ k g i, (c.afterCalls limits k).purge.parked[0]? = some g ∧
    (c.afterCalls limits k).schema.due (c.afterCalls limits k).table
      (c.afterCalls limits k).journal g = none ∧
    (c.afterCalls limits k).purge.parked[i]? = some h ∧
    ∀ l, k ≤ l → (c.afterCalls limits l).purge.parked = (c.afterCalls limits k).purge.parked ∧
      ∃ m, 10 * m < i ∧ (limits l).passed m = true

/-- A call with a deadline comes back. -/
theorem Standing.afterCalls_succ {k : Nat} (hs : (c.afterCalls limits k).Standing) :
    ∃ progress p, PurgeState.run (c.afterCalls limits k).schema (some (limits k))
        (c.afterCalls limits k).pending = .ok (progress, p) ∧
      (c.afterCalls limits k).runPurge (some (limits k)) =
        .ok (progress, c.afterCalls limits (k + 1)) ∧
      c.afterCalls limits (k + 1) = (c.afterCalls limits k).movedOn p := by
  obtain ⟨progress, p, hrun⟩ :=
    PurgeState.run_ok (p := (c.afterCalls limits k).pending) (some (limits k)) nofun hs
  have hcall : (c.afterCalls limits k).runPurge (some (limits k)) =
      .ok (progress, (c.afterCalls limits k).movedOn p) := by
    rw [runPurge_eq, hrun]
    rfl
  have hnext : c.afterCalls limits (k + 1) = (c.afterCalls limits k).movedOn p := by
    rw [afterCalls, hcall]
    rfl
  exact ⟨progress, p, hrun, hnext ▸ hcall, hnext⟩

theorem Standing.afterCalls (hs : c.Standing) (limits : Nat → Deadline) (k : Nat) :
    (c.afterCalls limits k).Standing := by
  induction k with
  | zero => exact hs
  | succ k ih =>
    obtain ⟨progress, p, -, hcall, -⟩ := ih.afterCalls_succ
    exact (ih.runPurge hcall).1

theorem schema_afterCalls (hs : c.Standing) (limits : Nat → Deadline) (k : Nat) :
    (c.afterCalls limits k).schema = c.schema := by
  induction k with
  | zero => rfl
  | succ k ih =>
    obtain ⟨progress, p, -, -, hnext⟩ := (hs.afterCalls limits k).afterCalls_succ
    rw [hnext]
    exact ih

/-- What has finished after some of the calls has finished after more of them. -/
theorem finished_afterCalls (hs : c.Standing) {k l : Nat} (hkl : k ≤ l)
    (hk : (c.afterCalls limits k).table.Finished h) :
    (c.afterCalls limits l).table.Finished h := by
  induction l, hkl using Nat.le_induction with
  | base => exact hk
  | succ l _ ih =>
    have hl := hs.afterCalls limits l
    obtain ⟨progress, p, hrun, -, hnext⟩ := hl.afterCalls_succ
    rw [hnext]
    exact (PurgeState.ran_of_run (p := (c.afterCalls limits l).pending) hl hrun).1.finished ih

/-- A call finishes a parked object, or comes nearer to it, or is stopped before it. -/
theorem afterCalls_gains (hs : c.Standing) {k : Nat} (hk : h ∈ (c.afterCalls limits k).purge.parked)
    (hn : c.schema.due (c.afterCalls limits k).table (c.afterCalls limits k).journal h = some n) :
    (c.afterCalls limits (k + 1)).table.Finished h ∨
      h ∈ (c.afterCalls limits (k + 1)).purge.parked ∧
      c.schema.due (c.afterCalls limits (k + 1)).table (c.afterCalls limits (k + 1)).journal h =
        some n ∧
      ((c.afterCalls limits (k + 1)).pending.toil c.schema h <
          (c.afterCalls limits k).pending.toil c.schema h ∨
        (c.afterCalls limits (k + 1)).pending.toil c.schema h =
            (c.afterCalls limits k).pending.toil c.schema h ∧
          PurgeState.Stalls c.schema h (limits k) (c.afterCalls limits k).pending
            (c.afterCalls limits (k + 1)).pending) := by
  have hstands := hs.afterCalls limits k
  obtain ⟨progress, p, hrun, -, hnext⟩ := hstands.afterCalls_succ
  rw [schema_afterCalls hs] at hrun
  rw [hnext]
  exact PurgeState.run_gains (p := (c.afterCalls limits k).pending) hstands hk hn hrun

/-- If from some call on every call is stopped before the object, the first object of the list is never
ready, or it would have been in the meantime. -/
theorem starves_of_stalls {k : Nat} (hs : c.Standing)
    (hk : h ∈ (c.afterCalls limits k).purge.parked)
    (hstalls : ∀ l, k ≤ l → PurgeState.Stalls c.schema h (limits l)
      (c.afterCalls limits l).pending (c.afterCalls limits (l + 1)).pending) :
    c.Starves limits h := by
  have hlist : ∀ l, k ≤ l →
      (c.afterCalls limits l).purge.parked = (c.afterCalls limits k).purge.parked := by
    intro l hl
    induction l, hl using Nat.le_induction with
    | base => rfl
    | succ l hl ih => exact (hstalls l hl).parked.trans ih
  obtain ⟨i, hi⟩ := Array.mem_iff_getElem?.mp hk
  obtain ⟨g, hg, -⟩ := (hstalls k (Nat.le_refl k)).front
  -- the object in front is asked by each of the calls
  have hfront : ∀ l, k ≤ l →
      c.schema.due (c.afterCalls limits (l + 1)).table (c.afterCalls limits (l + 1)).journal g =
        c.schema.due (c.afterCalls limits l).table (c.afterCalls limits l).journal g ∧
      (c.afterCalls limits (l + 1)).journal.pollCount g =
        (c.afterCalls limits l).journal.pollCount g + 1 ∧
      ∀ n, c.schema.due (c.afterCalls limits l).table (c.afterCalls limits l).journal g = some n →
        (c.afterCalls limits (l + 1)).journal.pollCount g < n := by
    intro l hl
    obtain ⟨g', hg', hall⟩ := (hstalls l hl).front
    change (c.afterCalls limits l).purge.parked[0]? = some g' at hg'
    rw [hlist l hl] at hg'
    cases hg.symm.trans hg'
    exact hall
  have hcount : ∀ j, c.schema.due (c.afterCalls limits (k + j)).table
        (c.afterCalls limits (k + j)).journal g =
      c.schema.due (c.afterCalls limits k).table (c.afterCalls limits k).journal g ∧
      j ≤ (c.afterCalls limits (k + j)).journal.pollCount g := by
    intro j
    induction j with
    | zero => exact ⟨rfl, Nat.zero_le _⟩
    | succ j ih =>
      obtain ⟨hdue, hmore, -⟩ := hfront (k + j) (Nat.le_add_right k j)
      exact ⟨hdue.trans ih.1, by rw [← Nat.add_assoc, hmore]; omega⟩
  refine ⟨k, g, i, hg, ?_, hi, fun l hl => ⟨hlist l hl, (hstalls l hl).stopped i ?_⟩⟩
  · rw [schema_afterCalls hs]
    cases hdue : c.schema.due (c.afterCalls limits k).table (c.afterCalls limits k).journal g with
    | none => rfl
    | some n =>
      obtain ⟨hsame, hasked⟩ := hcount n
      obtain ⟨-, hmore, howed⟩ := hfront (k + n) (Nat.le_add_right k n)
      have := howed n (hsame.trans hdue)
      omega
  · change (c.afterCalls limits l).purge.parked[i]? = some h
    rw [hlist l hl]
    exact hi

/-- An object that is ready some time is starved or has finished after finitely many calls. -/
theorem finishes_of_not_starves (hs : c.Standing) (hh : h ∈ c.purge.parked)
    (hn : c.schema.due c.table c.journal h = some n) (hnot : ¬ c.Starves limits h) :
    ∃ k, (c.afterCalls limits k).table.Finished h := by
  by_contra hnever
  rw [not_exists] at hnever
  have hkept : ∀ k, h ∈ (c.afterCalls limits k).purge.parked ∧
      c.schema.due (c.afterCalls limits k).table (c.afterCalls limits k).journal h = some n := by
    intro k
    induction k with
    | zero => exact ⟨hh, hn⟩
    | succ k ih =>
      obtain ⟨hk, hdue, -⟩ := (afterCalls_gains hs ih.1 ih.2).resolve_left (hnever (k + 1))
      exact ⟨hk, hdue⟩
  have hgains := fun k =>
    ((afterCalls_gains hs (hkept k).1 (hkept k).2).resolve_left (hnever (k + 1))).2.2
  -- what is left to be done cannot become less for ever
  let toil := fun k => (c.afterCalls limits k).pending.toil c.schema h
  have hanti : Antitone toil :=
    antitone_nat_of_succ_le fun k => (hgains k).elim le_of_lt fun hsame => le_of_eq hsame.1
  obtain ⟨k, hk⟩ : ∃ k, ∀ l, toil k ≤ toil l :=
    ⟨Function.argmin toil, fun l => Function.argmin_le toil l⟩
  refine hnot (starves_of_stalls hs (hkept k).1 fun l hl => ?_)
  have hleast : ¬ toil (l + 1) < toil l := by
    intro hless
    exact absurd (hk (l + 1)) (not_le_of_gt (hless.trans_le (hanti hl)))
  exact ((hgains l).resolve_left hleast).2

end Collector

/-- Calls with deadlines, one after the other, and a parked object that is ready some time. All calls come
back, and after finitely many of them the object has finished, unless it is starved: unless from some
call on an object that is never ready stands first in the list and no call has the time to come past it to
the object. -/
theorem Reached.parked_finishes_iff {c : Collector} (hr : Reached c) {h : Handle} {n : Nat}
    (hh : h ∈ c.purge.parked) (hn : c.schema.due c.table c.journal h = some n)
    (limits : Nat → Deadline) :
    (∀ k, ∃ progress, (c.afterCalls limits k).runPurge (some (limits k)) =
        .ok (progress, c.afterCalls limits (k + 1))) ∧
      ((∃ k, (c.afterCalls limits k).table.Finished h) ↔ ¬ c.Starves limits h) := by
  have hs := hr.standing
  refine ⟨fun k => ?_, fun ⟨k, hk⟩ => ?_, Collector.finishes_of_not_starves hs hh hn⟩
  · obtain ⟨progress, _, -, hcall, -⟩ := (hs.afterCalls limits k).afterCalls_succ
    exact ⟨progress, hcall⟩
  · rintro ⟨k', g, i, -, -, hi, hlist⟩
    have hfinished := Collector.finished_afterCalls hs (Nat.le_max_left k k') hk
    have hm : h ∈ (c.afterCalls limits (max k k')).purge.parked := by
      rw [(hlist _ (Nat.le_max_right k k')).1]
      exact Array.mem_of_getElem? hi
    exact PurgeState.not_finished_of_parked (p := (c.afterCalls limits (max k k')).pending)
      (hs.afterCalls limits _) hm hfinished

/-- Calls that are stopped at their first look at the clock do not come past an object in front that is
never ready. -/
theorem Collector.parked_afterCalls {c : Collector} (hs : c.Standing) {g : Handle}
    (hg : c.purge.parked[0]? = some g) (hnever : c.schema.due c.table c.journal g = none)
    (hleft : c.pending.left = 0) (limits : Nat → Deadline)
    (hlimits : ∀ k, (limits k).passed 0 = true) (k : Nat) :
    (c.afterCalls limits k).purge.parked = c.purge.parked := by
  suffices h : (c.afterCalls limits k).purge.parked = c.purge.parked ∧
      c.schema.due (c.afterCalls limits k).table (c.afterCalls limits k).journal g = none ∧
      (c.afterCalls limits k).pending.left = 0 from h.1
  induction k with
  | zero => exact ⟨rfl, hnever, hleft⟩
  | succ k ih =>
    obtain ⟨hlist, hdue, hover⟩ := ih
    have hstands := hs.afterCalls limits k
    obtain ⟨progress, p, hrun, -, hnext⟩ := hstands.afterCalls_succ
    rw [schema_afterCalls hs] at hrun
    have hheld := PurgeState.run_held (p := (c.afterCalls limits k).pending) hstands
      (g := g) (by rw [← hg, ← hlist]; rfl) hdue hover (hlimits k) hrun
    rw [hnext]
    exact ⟨hheld.1.trans hlist, hheld.2⟩

namespace Sample

/-- A class of objects of which the first is never ready, and every other when it is asked twice. -/
def stubborn : ClassSpec :=
  { node with
    lifecycle := ⟨none, some fun _ o => if o.handle = one then none else some 2, none⟩ }

theorem stubborn_honest : stubborn.Honest := ⟨node_honest.fields, node_honest.collector⟩

/-- Two objects die; the walk over them parks both. -/
theorem parks_stubborn : ∃ c, Reached c ∧ c.purge.parked = #[one, two] ∧ c.pending.left = 0 ∧
    c.schema.due c.table c.journal one = none ∧ c.schema.due c.table c.journal two = some 2 := by
  have hrun : Collector.runs .serial stubborn (nodes 2 ++ .collect .empty false ::
      .replicate 3 (.purge (some .always))) (fun c =>
        decide (c.purge.parked = #[one, two] ∧ c.pending.left = 0 ∧
          c.schema.due c.table c.journal one = none ∧
          c.schema.due c.table c.journal two = some 2)) = true := by
    decide +kernel
  obtain ⟨c, hr, hc⟩ := Reached.of_runs stubborn_honest (by decide +kernel) hrun
  exact ⟨c, hr, of_decide_eq_true hc⟩

end Sample

open Sample in
/-- An object that is ready when it is asked twice, behind one that is never ready, finishes if the calls
have time. -/
theorem parked_finishes_iff_stubborn : ∃ c, Reached c ∧ two ∈ c.purge.parked ∧
    c.schema.due c.table c.journal two = some 2 ∧
    ∃ k, (c.afterCalls (fun _ => .never) k).table.Finished two := by
  obtain ⟨c, hr, hparked, -, -, hdue⟩ := parks_stubborn
  have hm : two ∈ c.purge.parked := by simp [hparked]
  refine ⟨c, hr, hm, hdue, (hr.parked_finishes_iff hm hdue fun _ => .never).2.mpr ?_⟩
  rintro ⟨k, g, i, -, -, -, hall⟩
  obtain ⟨-, m, -, hm⟩ := hall k (Nat.le_refl k)
  cases hm

open Sample in
/-- The same object never finishes, however many calls are made, if every call is stopped at its first look
at the clock. -/
theorem parked_object_starves : ∃ c, Reached c ∧ two ∈ c.purge.parked ∧
    c.schema.due c.table c.journal two = some 2 ∧
    (∀ k, ∃ progress, (c.afterCalls (fun _ => .always) k).runPurge (some .always) =
      .ok (progress, c.afterCalls (fun _ => .always) (k + 1))) ∧
    ∀ k, ¬ (c.afterCalls (fun _ => .always) k).table.Finished two := by
  obtain ⟨c, hr, hparked, hleft, hnever, hdue⟩ := parks_stubborn
  have hs := hr.standing
  have hm : two ∈ c.purge.parked := by simp [hparked]
  refine ⟨c, hr, hm, hdue, fun k => ?_, fun k => ?_⟩
  · obtain ⟨progress, _, -, hcall, -⟩ := (hs.afterCalls (fun _ => .always) k).afterCalls_succ
    exact ⟨progress, hcall⟩
  · have hlist := Collector.parked_afterCalls hs (g := one) (by rw [hparked]; rfl) hnever hleft
      (fun _ => .always) (fun _ => rfl) k
    exact PurgeState.not_finished_of_parked
      (p := (c.afterCalls (fun _ => .always) k).pending) (hs.afterCalls _ k) (hlist ▸ hm)

end TracingHeap
