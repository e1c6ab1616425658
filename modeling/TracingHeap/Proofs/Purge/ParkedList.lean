import TracingHeap.Purge.Routing

namespace TracingHeap

/-- Taking an entry out of the list leaves the entries before it where they are; the order of those
after it may change. -/
theorem toList_swapRemove {a : Array Handle} {before after : List Handle} {h : Handle}
    (ha : a.toList = before ++ h :: after) :
    ∃ after', (swapRemove a before.length).toList = before ++ after' ∧ after'.Perm after := by
  obtain ⟨l⟩ := a
  change l = _ at ha
  subst ha
  rcases List.eq_nil_or_concat after with rfl | ⟨front, last, hconcat⟩
  · exact ⟨[], by simp [swapRemove, Array.swapIfInBounds], .nil⟩
  · rw [List.concat_eq_append] at hconcat
    subst hconcat
    refine ⟨last :: front, ?_, (List.perm_append_singleton last front).symm⟩
    have hdrop : (last :: (front ++ [h])).dropLast = last :: front := by
      rw [← List.cons_append, List.dropLast_concat]
    simpa [swapRemove, Array.swapIfInBounds] using hdrop

/-- The list has lost one entry. -/
theorem perm_swapRemove {a : Array Handle} {i : Nat} {h : Handle} (hi : a[i]? = some h) :
    a.toList.Perm (h :: (swapRemove a i).toList) := by
  obtain ⟨hlt, rfl⟩ := Array.getElem?_eq_some_iff.mp hi
  have hlt' : i < a.toList.length := by simpa using hlt
  have hsplit : a.toList = a.toList.take i ++ a[i] :: a.toList.drop (i + 1) := by
    rw [← Array.getElem_toList hlt, ← List.drop_eq_getElem_cons hlt', List.take_append_drop]
  obtain ⟨after, hafter, hperm⟩ := toList_swapRemove hsplit
  rw [List.length_take_of_le (Nat.le_of_lt hlt')] at hafter
  rw [hafter]
  refine (List.Perm.of_eq hsplit).trans (List.perm_middle.trans ?_)
  exact ((hperm.symm).append_left _).cons _

namespace Journal

variable {j : Journal} {r : Readiness} {o : Object} {g : Handle}

theorem polls_poll (j : Journal) (r : Readiness) (o : Object) :
    (j.poll r o).2.polls = if (j.poll r o).1 then j.otherPolls o.handle
      else (o.handle, j.pollCount o.handle + 1) :: j.otherPolls o.handle := rfl

theorem lookup_otherPolls {h : Handle} (hg : g ≠ h) :
    (j.otherPolls h).lookup g = j.polls.lookup g := by
  unfold otherPolls
  induction j.polls with
  | nil => rfl
  | cons p rest ih =>
    obtain ⟨k, n⟩ := p
    by_cases hk : k = h
    · have hgk : (g == k) = false := by simpa [hk] using hg
      simp only [List.filter_cons, hk, bne_self_eq_false, Bool.false_eq_true, if_false]
      rw [ih, ← hk, List.lookup_cons, hgk]
    · have hne : (k != h) = true := by simpa using hk
      simp only [List.filter_cons, hne, if_true, List.lookup_cons]
      cases g == k with
      | true => rfl
      | false => exact ih

/-- Asking one object does not count for another. -/
theorem pollCount_poll_of_ne (hg : g ≠ o.handle) : (j.poll r o).2.pollCount g = j.pollCount g := by
  have hother : (j.otherPolls o.handle).lookup g = j.polls.lookup g := lookup_otherPolls hg
  have hne : (g == o.handle) = false := by simpa using hg
  rw [pollCount, polls_poll]
  split
  · rw [hother, pollCount]
  · simp only [List.lookup_cons, hne, hother, pollCount]

/-- An object that is not ready has been asked once more. -/
theorem pollCount_poll_waiting (hw : (j.poll r o).1 = false) :
    (j.poll r o).2.pollCount o.handle = j.pollCount o.handle + 1 := by
  rw [pollCount, polls_poll, hw]
  simp

/-- An object that was waited for long enough is ready. -/
theorem poll_waiting {n : Nat} (hn : j.wanted r o = some n) (hw : (j.poll r o).1 = false) :
    j.pollCount o.handle + 1 < n := by
  unfold poll at hw
  simp only [hn, decide_eq_false_iff_not] at hw
  omega

end Journal

namespace Lifecycle

def beginning (l : Lifecycle) (o : Object) : List Event :=
  match l.beginWord with
  | some word => [.began word o.name o.handle]
  | none => []

def ending (l : Lifecycle) (o : Object) : List Event :=
  match l.finishWord with
  | some word => [.finished word o.name o.handle]
  | none => []

/-- The answer to being asked; an object that is ready at all times is not asked. -/
def answer (l : Lifecycle) (o : Object) (ready : Bool) : List Event :=
  match l.readiness with
  | some _ => [.polled ready o.name o.handle]
  | none => []

end Lifecycle

namespace Routing

variable {s : Schema} {r q : Routing} {o : Object} {l : Lifecycle} {ready : Bool}

theorem table_begin (hb : o.has .beginDestroyed = false) :
    (r.begin o l).table = r.table.setFlag o.handle .beginDestroyed := by
  simp [begin, hb]

theorem table_finish (hf : o.has .finishDestroyed = false) :
    (r.finish o l).table = r.table.setFlag o.handle .finishDestroyed := by
  simp [finish, hf]

theorem events_begin (hb : o.has .beginDestroyed = false) :
    (r.begin o l).journal.events = l.beginning o ++ r.journal.events := by
  unfold begin Lifecycle.beginning
  simp only [hb, Bool.false_eq_true, if_false]
  cases l.beginWord <;> rfl

theorem events_finish (hf : o.has .finishDestroyed = false) :
    (r.finish o l).journal.events = l.ending o ++ r.journal.events := by
  unfold finish Lifecycle.ending
  simp only [hf, Bool.false_eq_true, if_false]
  cases l.finishWord <;> rfl

/-- Routing the first stage changes the table and the events only. -/
theorem begin_frame (r : Routing) (o : Object) (l : Lifecycle) :
    (r.begin o l).cursor = r.cursor ∧ (r.begin o l).parked = r.parked ∧
      (r.begin o l).journal.gateOpen = r.journal.gateOpen ∧
      (r.begin o l).journal.polls = r.journal.polls := by
  unfold begin
  split
  · exact ⟨rfl, rfl, rfl, rfl⟩
  · cases l.beginWord <;> exact ⟨rfl, rfl, rfl, rfl⟩

/-- Routing the last stage changes the table and the events only. -/
theorem finish_frame (r : Routing) (o : Object) (l : Lifecycle) :
    (r.finish o l).cursor = r.cursor ∧ (r.finish o l).parked = r.parked ∧
      (r.finish o l).journal.gateOpen = r.journal.gateOpen ∧
      (r.finish o l).journal.polls = r.journal.polls := by
  unfold finish
  split
  · exact ⟨rfl, rfl, rfl, rfl⟩
  · cases l.finishWord <;> exact ⟨rfl, rfl, rfl, rfl⟩

/-- Asking changes the journal only. -/
theorem ask_frame (ha : r.ask o l = (ready, q)) : q.table = r.table ∧ q.cursor = r.cursor ∧
    q.parked = r.parked ∧ q.journal.gateOpen = r.journal.gateOpen := by
  unfold ask at ha
  split at ha <;> cases ha <;> exact ⟨rfl, rfl, rfl, rfl⟩

theorem events_ask (ha : r.ask o l = (ready, q)) :
    q.journal.events = l.answer o ready ++ r.journal.events := by
  unfold ask at ha
  unfold Lifecycle.answer
  split at ha <;> rename_i hl <;> cases ha <;> simp [hl]

/-- Only an object with a readiness hook is not ready. -/
theorem readiness_of_waiting (ha : r.ask o l = (false, q)) : ∃ f, l.readiness = some f := by
  unfold ask at ha
  split at ha
  · cases ha
  · rename_i f hf
    exact ⟨f, hf⟩

theorem pollCount_ask_of_ne {g : Handle} (ha : r.ask o l = (ready, q)) (hg : g ≠ o.handle) :
    q.journal.pollCount g = r.journal.pollCount g := by
  unfold ask at ha
  split at ha
  · cases ha
    rfl
  · cases ha
    exact Journal.pollCount_poll_of_ne hg

/-- An object that is not ready has been asked once more, and has to be asked again at least once. -/
theorem pollCount_ask_waiting (ha : r.ask o l = (false, q)) :
    q.journal.pollCount o.handle = r.journal.pollCount o.handle + 1 ∧
      ∀ f n, l.readiness = some f → r.journal.wanted f o = some n →
        q.journal.pollCount o.handle < n := by
  unfold ask at ha
  split at ha
  · cases ha
  · rename_i f hf
    simp only [Prod.mk.injEq] at ha
    obtain ⟨hready, rfl⟩ := ha
    have hcount := Journal.pollCount_poll_waiting hready
    refine ⟨hcount, fun f' n hf' hn => ?_⟩
    cases Option.some.inj (hf.symm.trans hf')
    have hlt := Journal.poll_waiting hn hready
    change (r.journal.poll f o).2.pollCount o.handle < n
    omega

end Routing

end TracingHeap
