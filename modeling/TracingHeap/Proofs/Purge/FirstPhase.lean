import Mathlib.Logic.Relation
import TracingHeap.Proofs.Purge.ParkedList
import TracingHeap.Proofs.Table.Basic

namespace TracingHeap

theorem Object.isUnreachable_set (o : Object) {f : Flag} (hu : o.isUnreachable = true) :
    (o.set f).isUnreachable = true := by
  rw [isUnreachable, has_set, show o.has .unreachable = true from hu]
  rfl

namespace Table

variable {t t' : Table} {c c' : Nat} {parked parked' : Array Handle} {g h : Handle} {o o' : Object}

/-- Only objects that are flagged have begun to be destroyed. -/
def Staged (t : Table) : Prop := ∀ h o, t.get? h = some o →
  o.has .beginDestroyed = true ∨ o.has .finishDestroyed = true → o.isUnreachable = true

/-- Where the first phase stands when the walk has come to slot `c`. Flagged objects from there on are
untouched, collectable ones before it have begun to be destroyed, and those that have not finished
are parked. -/
structure Underway (t : Table) (c : Nat) (parked : Array Handle) : Prop where
  ahead : ∀ h o, t.get? h = some o → o.isUnreachable = true → c ≤ h.index →
    o.has .beginDestroyed = false ∧ o.has .finishDestroyed = false
  behind : ∀ h o, t.get? h = some o → o.isUnreachable = true → t.isPermanent h = false →
    h.index < c → o.has .beginDestroyed = true ∧ (o.has .finishDestroyed = true ∨ h ∈ parked)
  waiting : ∀ h ∈ parked, ∃ o, t.get? h = some o ∧ o.isUnreachable = true ∧
    o.has .beginDestroyed = true ∧ o.has .finishDestroyed = false
  distinct : parked.toList.Nodup

/-- The walk goes past a slot without a flagged object. -/
theorem Underway.pass (u : t.Underway c parked)
    (hslot : ∀ o, t.slot? c = some o → o.isUnreachable = false) : t.Underway (c + 1) parked := by
  refine ⟨fun h o ho hu hc => u.ahead h o ho hu (Nat.le_of_succ_le hc),
    fun h o ho hu hp hc => ?_, u.waiting, u.distinct⟩
  have hne : h.index ≠ c := by
    intro he
    rw [get?, he] at ho
    rw [hslot o ho] at hu
    cases hu
  exact u.behind h o ho hu hp (by omega)

/-- One object is dealt with, and the walk may go past it: either it has finished, or it is parked. -/
theorem Underway.deal (u : t.Underway c parked) (hbound : t'.boundary = t.boundary)
    (hget : ∀ g, t'.get? g = if g = h then some o' else t.get? g)
    (hu : o'.isUnreachable = true) (hbegun : o'.has .beginDestroyed = true)
    (hdone : o'.has .finishDestroyed = true ∧ h ∉ parked' ∨
      o'.has .finishDestroyed = false ∧ h ∈ parked')
    (hc : c ≤ c') (hpast : h.index < c') (hothers : ∀ g, g ≠ h → g.index < c' → g.index < c)
    (hparked : ∀ g, g ≠ h → (g ∈ parked' ↔ g ∈ parked)) (hdistinct : parked'.toList.Nodup) :
    t'.Underway c' parked' := by
  refine ⟨fun g p hp hpu hg => ?_, fun g p hp hpu hperm hg => ?_, fun g hg => ?_, hdistinct⟩
  · rw [hget] at hp
    split at hp
    · rename_i he
      rw [he] at hg
      omega
    · exact u.ahead g p hp hpu (Nat.le_trans hc hg)
  · rw [hget] at hp
    split at hp
    · rename_i he
      cases hp
      rw [he]
      exact ⟨hbegun, hdone.imp And.left And.right⟩
    · rename_i hne
      rw [isPermanent, hbound] at hperm
      rw [hparked g hne]
      exact u.behind g p hp hpu hperm (hothers g hne hg)
  · rw [hget]
    by_cases he : g = h
    · rw [if_pos he]
      rcases hdone with ⟨-, hout⟩ | ⟨hf, -⟩
      · exact absurd (he ▸ hg) hout
      · exact ⟨o', rfl, hu, hbegun, hf⟩
    · rw [if_neg he]
      exact u.waiting g ((hparked g he).mp hg)

theorem get?_setFlag (ho : t.get? h = some o) (f : Flag) (g : Handle) :
    (t.setFlag h f).get? g = if g = h then some (o.set f) else t.get? g := by
  rw [setFlag, get?_modify]
  split
  · rename_i he
    rw [he, ho]
    rfl
  · rfl

theorem get?_setFlag_setFlag (ho : t.get? h = some o) (f f' : Flag) (g : Handle) :
    ((t.setFlag h f).setFlag h f').get? g =
      if g = h then some ((o.set f).set f') else t.get? g := by
  have hset : (t.setFlag h f).get? h = some (o.set f) := by
    rw [get?_setFlag ho, if_pos rfl]
  rw [get?_setFlag hset, get?_setFlag ho]
  split <;> rfl

/-- One note of how far the destruction of a flagged object has come, the object being one of those
meant. -/
def Notes (among : Handle → Prop) (t t' : Table) : Prop := ∃ h o f, among h ∧ t.get? h = some o ∧
  o.isUnreachable = true ∧ (f = .beginDestroyed ∨ f = .finishDestroyed) ∧ t' = t.setFlag h f

variable {among : Handle → Prop}

theorem Staged.note (hs : t.Staged) (hn : Notes among t t') : t'.Staged := by
  obtain ⟨h, o, f, -, ho, hu, hf, rfl⟩ := hn
  intro g p hp hstage
  rw [get?_setFlag ho] at hp
  split at hp
  · cases hp
    rw [Object.isUnreachable, Object.has_set, show o.has .unreachable = true from hu]
    rfl
  · exact hs g p hp hstage

theorem Tidy.note (ht : t.Tidy) (hn : Notes among t t') : t'.Tidy := by
  obtain ⟨h, o, f, -, -, -, -, rfl⟩ := hn
  exact ht.setFlag h f

abbrev Annotates (among : Handle → Prop) : Table → Table → Prop :=
  Relation.ReflTransGen (Notes among)

theorem Annotates.staged (a : Annotates among t t') (hs : t.Staged) : t'.Staged := by
  induction a with
  | refl => exact hs
  | tail _ hn ih => exact ih.note hn

theorem Annotates.tidy (a : Annotates among t t') (ht : t.Tidy) : t'.Tidy := by
  induction a with
  | refl => exact ht
  | tail _ hn ih => exact ih.note hn

theorem Annotates.capacity (a : Annotates among t t') : t'.capacity = t.capacity := by
  induction a with
  | refl => rfl
  | tail _ hn ih =>
    obtain ⟨h, o, f, -, -, -, -, rfl⟩ := hn
    rw [← ih]
    exact size_modify _ _ _

theorem Annotates.boundary (a : Annotates among t t') : t'.boundary = t.boundary := by
  induction a with
  | refl => rfl
  | tail _ hn ih =>
    obtain ⟨h, o, f, -, -, -, -, rfl⟩ := hn
    exact ih

end Table

namespace Routing

variable {s : Schema} {r r' r'' q : Routing} {o : Object} {h : Handle} {i : Nat}

inductive Move (s : Schema) : Routing → Routing → Prop where
  /-- The walk goes past a slot without a flagged object. -/
  | pass {r : Routing} : (∀ o, r.table.slot? r.cursor = some o → o.isUnreachable = false) →
      Move s r { r with cursor := r.cursor + 1 }
  /-- The walk destroys an object that is ready. -/
  | destroy {r q : Routing} {o : Object} : r.table.get? o.handle = some o →
      o.handle.index = r.cursor → o.isUnreachable = true → o.has .beginDestroyed = false →
      o.has .finishDestroyed = false →
      (r.begin o (s.lifecycle o.classId)).ask o (s.lifecycle o.classId) = (true, q) →
      Move s r { q.finish o (s.lifecycle o.classId) with
        cursor := (q.finish o (s.lifecycle o.classId)).cursor + 1 }
  /-- The walk parks an object that is not ready. -/
  | park {r q : Routing} {o : Object} : r.table.get? o.handle = some o →
      o.handle.index = r.cursor → o.isUnreachable = true → o.has .beginDestroyed = false →
      o.has .finishDestroyed = false →
      (r.begin o (s.lifecycle o.classId)).ask o (s.lifecycle o.classId) = (false, q) →
      Move s r { q.park o.handle with cursor := (q.park o.handle).cursor + 1 }
  /-- A parked object is ready. -/
  | release {r q : Routing} {o : Object} {i : Nat} : r.parked[i]? = some o.handle →
      r.table.get? o.handle = some o → o.isUnreachable = true → o.has .beginDestroyed = true →
      o.has .finishDestroyed = false → r.ask o (s.lifecycle o.classId) = (true, q) →
      Move s r { q.finish o (s.lifecycle o.classId) with
        parked := swapRemove (q.finish o (s.lifecycle o.classId)).parked i }
  /-- A parked object is not ready. -/
  | wait {r q : Routing} {o : Object} {i : Nat} : r.parked[i]? = some o.handle →
      r.table.get? o.handle = some o → o.isUnreachable = true → o.has .beginDestroyed = true →
      o.has .finishDestroyed = false → r.ask o (s.lifecycle o.classId) = (false, q) → Move s r q
  /-- The clock is looked at. -/
  | look {r : Routing} : Move s r { r with looks := r.looks + 1 }

abbrev Moves (s : Schema) : Routing → Routing → Prop := Relation.ReflTransGen (Move s)

structure Stands (r : Routing) : Prop where
  tidy : r.table.Tidy
  staged : r.table.Staged
  underway : r.table.Underway r.cursor r.parked

/-- A move makes notes of the object at the cursor or of a parked one. -/
theorem Move.annotates {among : Handle → Prop} (m : Move s r r')
    (hcursor : ∀ h, h.index = r.cursor → among h) (hparked : ∀ h ∈ r.parked, among h) :
    Table.Annotates among r.table r'.table := by
  have hnote : ∀ {t : Table} {o : Object} {f : Flag}, among o.handle → t.get? o.handle = some o →
      o.isUnreachable = true → f = .beginDestroyed ∨ f = .finishDestroyed →
      Table.Notes among t (t.setFlag o.handle f) :=
    fun ha ho hu hf => ⟨_, _, _, ha, ho, hu, hf, rfl⟩
  cases m with
  | pass | look => exact .refl
  | wait _ _ _ _ _ ha =>
    rw [(ask_frame ha).1]
  | @park q o ho hi hu hb _ ha =>
    change Table.Annotates among r.table q.table
    rw [(ask_frame ha).1, table_begin hb]
    exact .single (hnote (hcursor _ hi) ho hu (.inl rfl))
  | release hi ho hu _ hf ha =>
    change Table.Annotates among r.table (finish _ _ _).table
    rw [table_finish hf, (ask_frame ha).1]
    exact .single (hnote (hparked _ (Array.mem_of_getElem? hi)) ho hu (.inr rfl))
  | @destroy q o ho hi hu hb hf ha =>
    change Table.Annotates among r.table (finish _ _ _).table
    rw [table_finish hf, (ask_frame ha).1, table_begin hb]
    refine .tail (.single (hnote (hcursor _ hi) ho hu (.inl rfl)))
      ⟨_, o.set .beginDestroyed, _, hcursor _ hi, ?_, o.isUnreachable_set hu, .inr rfl, rfl⟩
    rw [Table.get?_setFlag ho, if_pos rfl]

/-- An object that has not begun to be destroyed is not in the list. -/
theorem Stands.not_parked (hr : r.Stands) (ho : r.table.get? o.handle = some o)
    (hb : o.has .beginDestroyed = false) : o.handle ∉ r.parked := by
  intro hm
  obtain ⟨p, hp, -, hbp, -⟩ := hr.underway.waiting _ hm
  rw [ho] at hp
  cases hp
  rw [hb] at hbp
  cases hbp

/-- An object that was not ready when the walk met it joins the list. -/
theorem Stands.park (hr : r.Stands) (ho : r.table.get? o.handle = some o)
    (hi : o.handle.index = r.cursor) (hu : o.isUnreachable = true)
    (hf : o.has .finishDestroyed = false) (hb : o.has .beginDestroyed = false) :
    (r.table.setFlag o.handle .beginDestroyed).Underway (r.cursor + 1)
      (r.parked.push o.handle) := by
  have hout := hr.not_parked ho hb
  refine hr.underway.deal rfl (Table.get?_setFlag ho _) (o.isUnreachable_set hu) (by simp)
    (.inr ⟨by simp [hf], by simp⟩) (Nat.le_succ _) (by omega) (fun g hne hg => ?_) (fun g hne => ?_)
    ?_
  · have hindex : g.index ≠ r.cursor := fun he => hne (Handle.ext_index (he.trans hi.symm))
    omega
  · simp [hne]
  · rw [Array.toList_push]
    refine List.nodup_append.mpr ⟨hr.underway.distinct, by simp, fun a ha b hb' => ?_⟩
    rw [List.mem_singleton.mp hb']
    intro he
    exact hout (Array.mem_toList_iff.mp (he ▸ ha))

/-- An object that was ready when the walk met it has finished. -/
theorem Stands.destroy (hr : r.Stands) (ho : r.table.get? o.handle = some o)
    (hi : o.handle.index = r.cursor) (hu : o.isUnreachable = true)
    (hb : o.has .beginDestroyed = false) :
    ((r.table.setFlag o.handle .beginDestroyed).setFlag o.handle .finishDestroyed).Underway
      (r.cursor + 1) r.parked := by
  have hout := hr.not_parked ho hb
  refine hr.underway.deal rfl (Table.get?_setFlag_setFlag ho _ _)
    ((o.set _).isUnreachable_set (o.isUnreachable_set hu)) (by simp) (.inl ⟨by simp, hout⟩)
    (Nat.le_succ _) (by omega) (fun g hne hg => ?_) (fun g _ => .rfl) hr.underway.distinct
  have hindex : g.index ≠ r.cursor := fun he => hne (Handle.ext_index (he.trans hi.symm))
  omega

/-- A parked object that is ready leaves the list. -/
theorem Stands.release (hr : r.Stands) (hi : r.parked[i]? = some o.handle)
    (ho : r.table.get? o.handle = some o) (hu : o.isUnreachable = true)
    (hb : o.has .beginDestroyed = true) :
    (r.table.setFlag o.handle .finishDestroyed).Underway r.cursor (swapRemove r.parked i) := by
  have hperm := perm_swapRemove hi
  obtain ⟨hout, hdistinct⟩ := List.nodup_cons.mp (hperm.nodup_iff.mp hr.underway.distinct)
  have hpast : o.handle.index < r.cursor := by
    apply Nat.lt_of_not_le
    intro hc
    rw [(hr.underway.ahead _ o ho hu hc).1] at hb
    cases hb
  refine hr.underway.deal rfl (Table.get?_setFlag ho _) (o.isUnreachable_set hu) (by simp [hb])
    (.inl ⟨by simp, fun hm => hout (Array.mem_toList_iff.mpr hm)⟩) (Nat.le_refl _) hpast
    (fun g _ hg => hg) (fun g hne => ?_) hdistinct
  rw [← Array.mem_toList_iff, ← Array.mem_toList_iff, hperm.mem_iff, List.mem_cons]
  simp [hne]

theorem Move.annotates_all (m : Move s r r') : Table.Annotates (fun _ => True) r.table r'.table :=
  m.annotates (fun _ _ => trivial) (fun _ _ => trivial)

/-- Every move keeps the account. -/
theorem Move.stands (m : Move s r r') (hr : r.Stands) : r'.Stands := by
  have a := m.annotates_all
  refine ⟨a.tidy hr.tidy, a.staged hr.staged, ?_⟩
  cases m with
  | pass hslot => exact hr.underway.pass hslot
  | look => exact hr.underway
  | wait _ _ _ _ _ ha =>
    obtain ⟨htable, hcursor, hparked, -⟩ := ask_frame ha
    rw [htable, hcursor, hparked]
    exact hr.underway
  | @park q o ho hi hu hb hf ha =>
    obtain ⟨htable, hcursor, hparked, -⟩ := ask_frame ha
    obtain ⟨hcursor', hparked', -⟩ := begin_frame r o (s.lifecycle o.classId)
    change q.table.Underway (q.cursor + 1) (q.parked.push o.handle)
    rw [htable, hcursor, hparked, hcursor', hparked', table_begin hb]
    exact hr.park ho hi hu hf hb
  | @destroy q o ho hi hu hb hf ha =>
    obtain ⟨htable, hcursor, hparked, -⟩ := ask_frame ha
    obtain ⟨hcursor', hparked', -⟩ := begin_frame r o (s.lifecycle o.classId)
    obtain ⟨hcursor'', hparked'', -⟩ := finish_frame q o (s.lifecycle o.classId)
    change (finish _ _ _).table.Underway ((finish _ _ _).cursor + 1) (finish _ _ _).parked
    rw [hcursor'', hparked'', hcursor, hparked, hcursor', hparked', table_finish hf, htable,
      table_begin hb]
    exact hr.destroy ho hi hu hb
  | @release q o i hi ho hu hb hf ha =>
    obtain ⟨htable, hcursor, hparked, -⟩ := ask_frame ha
    obtain ⟨hcursor', hparked', -⟩ := finish_frame q o (s.lifecycle o.classId)
    change (finish _ _ _).table.Underway (finish _ _ _).cursor
      (swapRemove (finish _ _ _).parked i)
    rw [hcursor', hparked', hcursor, hparked, table_finish hf, htable]
    exact hr.release hi ho hu hb

theorem Moves.stands (m : Moves s r r') (hr : r.Stands) : r'.Stands := by
  induction m with
  | refl => exact hr
  | tail _ hm ih => exact hm.stands ih

theorem Moves.annotates (m : Moves s r r') :
    Table.Annotates (fun _ => True) r.table r'.table := by
  induction m with
  | refl => exact .refl
  | tail _ hm ih => exact ih.trans hm.annotates_all

/-- The walk stands outside the permanent pool, and so does what is parked. -/
structure Outside (r : Routing) : Prop where
  cursor : r.table.boundary ≤ r.cursor
  parked : ∀ h ∈ r.parked, r.table.isPermanent h = false

theorem Move.outside (m : Move s r r') (hr : r.Outside) : r'.Outside := by
  have a := m.annotates_all
  have hsame : ∀ {q : Routing}, q.cursor = r.cursor ∨ q.cursor = r.cursor + 1 →
      q.table.boundary = r.table.boundary →
      (∀ h ∈ q.parked, h ∈ r.parked ∨ h.index = r.cursor) → q.Outside := by
    intro q hc hb hp
    have hcursor := hr.cursor
    refine ⟨by omega, fun h hh => ?_⟩
    rcases hp h hh with hh | hh
    · rw [Table.isPermanent, hb]
      exact hr.parked h hh
    · simp only [Table.isPermanent, decide_eq_false_iff_not]
      omega
  cases m with
  | pass => exact hsame (.inr rfl) a.boundary fun h hh => .inl hh
  | look => exact hsame (.inl rfl) a.boundary fun h hh => .inl hh
  | wait _ _ _ _ _ ha =>
    obtain ⟨-, hcursor, hparked, -⟩ := ask_frame ha
    exact hsame (.inl hcursor) a.boundary fun h hh => .inl (hparked ▸ hh)
  | @park q o ho hi hu hb hf ha =>
    obtain ⟨-, hcursor, hparked, -⟩ := ask_frame ha
    obtain ⟨hcursor', hparked', -⟩ := begin_frame r o (s.lifecycle o.classId)
    refine hsame (.inr ?_) a.boundary fun h hh => ?_
    · change q.cursor + 1 = _
      rw [hcursor, hcursor']
    · change h ∈ q.parked.push o.handle at hh
      rw [hparked, hparked'] at hh
      rcases Array.mem_push.mp hh with hh | he
      · exact .inl hh
      · exact .inr (he ▸ hi)
  | @destroy q o ho hi hu hb hf ha =>
    obtain ⟨-, hcursor, hparked, -⟩ := ask_frame ha
    obtain ⟨hcursor', hparked', -⟩ := begin_frame r o (s.lifecycle o.classId)
    obtain ⟨hcursor'', hparked'', -⟩ := finish_frame q o (s.lifecycle o.classId)
    refine hsame (.inr ?_) a.boundary fun h hh => .inl ?_
    · change (finish _ _ _).cursor + 1 = _
      rw [hcursor'', hcursor, hcursor']
    · change h ∈ (finish _ _ _).parked at hh
      rwa [hparked'', hparked, hparked'] at hh
  | @release q o i hi ho hu hb hf ha =>
    obtain ⟨-, hcursor, hparked, -⟩ := ask_frame ha
    obtain ⟨hcursor', hparked', -⟩ := finish_frame q o (s.lifecycle o.classId)
    refine hsame (.inl (hcursor'.trans hcursor)) a.boundary fun h hh => .inl ?_
    change h ∈ swapRemove (finish _ _ _).parked i at hh
    rw [hparked', hparked] at hh
    rw [← Array.mem_toList_iff, (perm_swapRemove hi).mem_iff]
    exact List.mem_cons_of_mem _ (Array.mem_toList_iff.mpr hh)

theorem Moves.outside (m : Moves s r r') (hr : r.Outside) : r'.Outside := by
  induction m with
  | refl => exact hr
  | tail _ hm ih => exact hm.outside ih

/-- From outside the permanent pool, no note is made of an object in it. -/
theorem Moves.annotates_outside (m : Moves s r r') (hr : r.Outside) :
    Table.Annotates (fun h => r.table.boundary ≤ h.index) r.table r'.table := by
  induction m with
  | refl => exact .refl
  | @tail q r' a hm ih =>
    have hout := Moves.outside a hr
    have hb : q.table.boundary = r.table.boundary := (Moves.annotates a).boundary
    refine ih.trans (hm.annotates (fun h hh => ?_) (fun h hh => ?_))
    · have := hout.cursor
      omega
    · have hp := hout.parked h hh
      simp only [Table.isPermanent, decide_eq_false_iff_not] at hp
      omega

/-- The walk makes a move at every slot. -/
theorem step_moves (hr : r.Stands) :
    ∃ r', r.step s = .ok r' ∧ Move s r r' ∧ r'.cursor = r.cursor + 1 := by
  unfold step
  dsimp only
  split
  · rename_i o hslot
    have hi := hr.tidy.placed _ o hslot
    have ho : r.table.get? o.handle = some o := by
      rw [Table.get?, hi]
      exact hslot
    split
    · rename_i hu
      obtain ⟨hb, hf⟩ := hr.underway.ahead _ o ho hu (Nat.le_of_eq hi.symm)
      obtain ⟨hcursor, -⟩ := begin_frame r o (s.lifecycle o.classId)
      cases ha : (r.begin o (s.lifecycle o.classId)).ask o (s.lifecycle o.classId) with
      | mk ready q =>
        have hcursor' := (ask_frame ha).2.1
        unfold Routing.destroy
        rw [if_neg (by simp [hf])]
        simp only [ha]
        cases ready with
        | true =>
          refine ⟨_, rfl, .destroy ho hi hu hb hf ha, ?_⟩
          obtain ⟨hcursor'', -⟩ := finish_frame q o (s.lifecycle o.classId)
          simp only [if_true]
          rw [hcursor'', hcursor', hcursor]
        | false =>
          refine ⟨_, rfl, .park ho hi hu hb hf ha, ?_⟩
          change q.cursor + 1 = r.cursor + 1
          rw [hcursor', hcursor]
    · rename_i hu
      refine ⟨_, rfl, .pass fun p hp => ?_, rfl⟩
      rw [hslot] at hp
      cases hp
      simpa using hu
  · rename_i hnone
    refine ⟨_, rfl, .pass fun p hp => ?_, rfl⟩
    rw [hnone] at hp
    cases hp

/-- The walk is a sequence of moves. It goes on for at least one slot, and without a deadline for
all. -/
theorem walk_moves (deadline : Option Deadline) (left : Nat) : ∀ (seen : Nat) (r : Routing),
    r.Stands → ∃ cut r', walk s deadline left seen r = .ok (cut, r') ∧ Moves s r r' ∧
      r.cursor + min left 1 ≤ r'.cursor ∧ r'.cursor ≤ r.cursor + left ∧
      (cut = false → r'.cursor = r.cursor + left) ∧ (deadline = none → cut = false) ∧
      (left = 0 → cut = false ∧ r' = r) := by
  induction left with
  | zero =>
    intro seen r hr
    exact ⟨false, r, rfl, .refl, Nat.le_refl _, Nat.le_refl _, fun _ => rfl, fun _ => rfl,
      fun _ => ⟨rfl, rfl⟩⟩
  | succ left ih =>
    intro seen r hr
    obtain ⟨q, hq, hm, hc⟩ := step_moves (s := s) hr
    have hrest : ∀ p : Routing, Moves s r p → p.cursor = r.cursor + 1 →
        ∃ cut r', walk s deadline left (seen + 1) p = .ok (cut, r') ∧ Moves s r r' ∧
          r.cursor + min (left + 1) 1 ≤ r'.cursor ∧ r'.cursor ≤ r.cursor + (left + 1) ∧
          (cut = false → r'.cursor = r.cursor + (left + 1)) ∧ (deadline = none → cut = false) ∧
          (left + 1 = 0 → cut = false ∧ r' = r) := by
      intro p hp hpc
      obtain ⟨cut, r', hwalk, hmoves, hlow, hhigh, hend, hd, -⟩ := ih (seen + 1) p (hp.stands hr)
      exact ⟨cut, r', hwalk, hp.trans hmoves, by omega, by omega,
        fun h => by have := hend h; omega, hd, fun h => absurd h (Nat.succ_ne_zero _)⟩
    have hlook : Moves s r { q with looks := q.looks + 1 } := .tail (.single hm) .look
    rw [walk, hq]
    change ∃ cut r', (if seen % routingGranularity = 0 then _ else _) = _ ∧ _
    split
    · split
      · rename_i hstop
        refine ⟨true, _, rfl, hlook, ?_, ?_, nofun, fun hd => ?_,
          fun h => absurd h (Nat.succ_ne_zero _)⟩
        · change _ ≤ q.cursor
          omega
        · change q.cursor ≤ _
          omega
        · rw [hd] at hstop
          cases hstop
      · exact hrest _ hlook hc
    · exact hrest q (.single hm) hc

end Routing

end TracingHeap
