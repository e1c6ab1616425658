import TracingHeap.Proofs.Purge.SecondPhase
import TracingHeap.Proofs.Purge.Polling

namespace TracingHeap

/-- How far a purge has come. A pending purge first takes the flagged objects through the stages of
their destruction; when all of them have finished, those outside the permanent pool are freed in the
order of their slots. -/
structure Purge.Stands (p : Purge) (t : Table) : Prop where
  tidy : t.Tidy
  staged : t.Staged
  idle : p.required = false → p.parked = #[] ∧
    ∀ h o, t.get? h = some o → t.isPermanent h = false → o.isUnreachable = false
  underway : p.required = true → p.routed = false →
    t.Underway (p.placeCursor t).cursor p.parked
  ripe : p.required = true → p.routed = true → p.parked = #[] ∧
    t.Ripe (p.placeCursor t).cursor ∧ ∀ h o, t.get? h = some o → o.isUnreachable = true →
      t.isPermanent h = false → (p.placeCursor t).cursor ≤ h.index

namespace Purge

theorem placeCursor_rewind {p : Purge} (hr : p.rewind = true) (t : Table) :
    (p.placeCursor t).cursor = t.boundary := by
  simp [placeCursor, hr]

theorem placeCursor_resume {p : Purge} (hr : p.rewind = false) (t : Table) :
    p.placeCursor t = p := by
  simp [placeCursor, hr]

/-- What lies ahead of a placed cursor. -/
theorem placeCursor_le_index {p : Purge} {t : Table} {h : Handle} :
    (p.placeCursor t).cursor ≤ h.index ↔
      if p.rewind then t.isPermanent h = false else p.cursor ≤ h.index := by
  cases hr : p.rewind with
  | false => simp [placeCursor_resume hr]
  | true => simp [placeCursor_rewind hr, Table.isPermanent]

/-- Only the cursor and the note to rewind it change. -/
theorem placeCursor_frame (p : Purge) (t : Table) : (p.placeCursor t).required = p.required ∧
    (p.placeCursor t).routed = p.routed ∧ (p.placeCursor t).parked = p.parked ∧
    (p.placeCursor t).purged = p.purged ∧ (p.placeCursor t).rewind = false := by
  unfold placeCursor
  split
  · exact ⟨rfl, rfl, rfl, rfl, rfl⟩
  · rename_i hr
    exact ⟨rfl, rfl, rfl, rfl, by simpa using hr⟩

end Purge

/-- Placing the cursor does not change how far the purge has come. -/
theorem Purge.Stands.place {p : Purge} {t : Table} (hp : p.Stands t) : (p.placeCursor t).Stands t := by
  obtain ⟨hreq, hrouted, hparked, -, hrewind⟩ := p.placeCursor_frame t
  refine ⟨hp.tidy, hp.staged, fun h => ?_, fun h1 h2 => ?_, fun h1 h2 => ?_⟩
  · rw [hparked]
    exact hp.idle (hreq ▸ h)
  · rw [Purge.placeCursor_resume hrewind, hparked]
    exact hp.underway (hreq ▸ h1) (hrouted ▸ h2)
  · rw [Purge.placeCursor_resume hrewind, hparked]
    exact hp.ripe (hreq ▸ h1) (hrouted ▸ h2)

namespace PurgeState

variable {s : Schema} {deadline : Option Deadline} {p q f : PurgeState}

def firstPhase (s : Schema) (deadline : Option Deadline) (p : PurgeState) :
    Except Fault (Bool × Nat × PurgeState) :=
  let purge := p.purge.placeCursor p.table
  if purge.routed then pure (false, 0, ⟨purge, p.table, p.journal⟩)
  else route s deadline purge p.table p.journal

def secondPhase (deadline : Option Deadline) (cut : Bool) (looks : Nat) (q : PurgeState) :
    Except Fault (Bool × PurgeState) :=
  if q.purge.routed && !cut then do
    let (ended, purge, table) ← sweep deadline looks q.purge q.table
    return (ended, ⟨purge, table, q.journal⟩)
  else pure (false, q)

theorem secondPhase_eq (before : Nat) (cut : Bool) (looks : Nat) (q : PurgeState) : (do
    let (completed, f) ← q.secondPhase deadline cut looks
    return ((⟨f.purge.purged - before, completed⟩ : Progress),
      if completed then { f with purge := f.purge.reset } else f)) =
    (if (q.purge.routed && !cut) = true then do
      let found ← sweep deadline looks q.purge q.table
      pure (⟨found.2.1.purged - before, found.1⟩,
        ⟨if found.1 = true then found.2.1.reset else found.2.1, found.2.2, q.journal⟩)
    else pure (⟨q.purge.purged - before, false⟩, q)) := by
  unfold secondPhase
  split
  · cases sweep deadline looks q.purge q.table with
    | error e => rfl
    | ok found =>
      obtain ⟨ended, purge, table⟩ := found
      cases ended <;> rfl
  · rfl

/-- A call is one phase after the other. -/
theorem run_eq (hreq : p.purge.required = true) : run s deadline p = (do
    let (cut, looks, q) ← p.firstPhase s deadline
    let (completed, f) ← q.secondPhase deadline cut looks
    return (⟨f.purge.purged - p.purge.purged, completed⟩,
      if completed then { f with purge := f.purge.reset } else f)) := by
  obtain ⟨purge, table, journal⟩ := p
  simp only [secondPhase_eq]
  unfold run firstPhase
  dsimp only at hreq ⊢
  rw [hreq]
  by_cases hr : (purge.placeCursor table).routed = true
  · rw [if_pos hr, if_pos hr]
    rfl
  · rw [if_neg hr, if_neg hr]
    rfl

theorem run_idle (hreq : p.purge.required = false) : run s deadline p = .ok (⟨0, true⟩, p) := by
  obtain ⟨purge, table, journal⟩ := p
  unfold run
  dsimp only at hreq ⊢
  rw [hreq]
  rfl

def routing (p : PurgeState) : Routing :=
  ⟨p.table, p.journal, (p.purge.placeCursor p.table).cursor,
    (p.purge.placeCursor p.table).parked, 0⟩

theorem routing_stands (hp : p.purge.Stands p.table) (hreq : p.purge.required = true)
    (hr : p.purge.routed = false) : p.routing.Stands := by
  refine ⟨hp.tidy, hp.staged, ?_⟩
  have hu := hp.underway hreq hr
  rwa [← (p.purge.placeCursor_frame p.table).2.2.1] at hu

/-- The routing `r` is where the first phase stands in `q`: it goes on, or it is over with nothing
parked. -/
structure Rests (r : Routing) (q : PurgeState) : Prop where
  table : q.table = r.table
  journal : q.journal = r.journal
  parked : q.purge.parked = r.parked
  cases : q.purge.routed = false ∧ q.purge.rewind = false ∧ q.purge.cursor = r.cursor ∨
    q.purge.routed = true ∧ q.purge.rewind = true ∧ r.parked = #[] ∧ r.table.capacity ≤ r.cursor

structure Routes (s : Schema) (p q : PurgeState) : Prop where
  required : q.purge.required = true
  purged : q.purge.purged = p.purge.purged
  cases : p.purge.routed = true ∧ q = ⟨p.purge.placeCursor p.table, p.table, p.journal⟩ ∨
    p.purge.routed = false ∧ ∃ r, Routing.Moves s p.routing r ∧ Rests r q

/-- The account of a routing is that of the purge it is a part of. -/
theorem Rests.stands {r : Routing} (hq : Rests r q) (hreq : q.purge.required = true)
    (hr : r.Stands) : q.purge.Stands q.table := by
  rw [hq.table]
  refine ⟨hr.tidy, hr.staged, fun hidle => ?_, fun _ hrouted => ?_, fun _ hrouted => ?_⟩
  · rw [hreq] at hidle
    cases hidle
  · rcases hq.cases with ⟨-, hrewind, hcursor⟩ | ⟨hend, -⟩
    · rw [Purge.placeCursor_resume hrewind, hcursor, hq.parked]
      exact hr.underway
    · rw [hend] at hrouted
      cases hrouted
  · rcases hq.cases with ⟨hgo, -⟩ | ⟨-, hrewind, hempty, hcap⟩
    · rw [hgo] at hrouted
      cases hrouted
    · rw [Purge.placeCursor_rewind hrewind, hq.parked]
      refine ⟨hempty, fun h o ho hu hc => ?_, fun h o ho hu hp => by simpa [Table.isPermanent] using hp⟩
      have hp : r.table.isPermanent h = false := by simpa [Table.isPermanent] using hc
      obtain ⟨hb, hf⟩ := hr.underway.behind h o ho hu hp
        (Nat.lt_of_lt_of_le (Table.index_lt_size ho) hcap)
      refine ⟨hb, hf.resolve_right fun hm => ?_⟩
      rw [hempty] at hm
      exact Array.not_mem_empty h hm

theorem Routes.stands (hq : Routes s p q) (hp : p.purge.Stands p.table)
    (hreq : p.purge.required = true) : q.purge.Stands q.table := by
  rcases hq.cases with ⟨-, rfl⟩ | ⟨hrouted, r, hmoves, hrests⟩
  · exact hp.place
  · exact hrests.stands hq.required (hmoves.stands (routing_stands hp hreq hrouted))

def left (p : PurgeState) : Nat := p.table.capacity - p.routing.cursor

/-- One purge is nearer to its end than another: it has come to the second phase, or the walk at hand
has got on, or the walk is over and fewer questions are left. -/
def Before (s : Schema) (q p : PurgeState) : Prop :=
  p.purge.routed = false ∧ q.purge.routed = true ∨ q.purge.routed = p.purge.routed ∧
    (q.left < p.left ∨ q.left = p.left ∧ q.routing.debt s < p.routing.debt s)

/-- A first phase that is not over goes on where it stands. -/
theorem Rests.routing_eq {r : Routing} (hq : Rests r q) (hrouted : q.purge.routed = false) :
    q.routing = { r with looks := 0 } := by
  rcases hq.cases with ⟨-, hrewind, hcursor⟩ | ⟨hend, -⟩
  · unfold routing
    rw [Purge.placeCursor_resume hrewind, hcursor, hq.parked, hq.table, hq.journal]
  · rw [hend] at hrouted
    cases hrouted

theorem Rests.routing {r : Routing} (hq : Rests r q) (hrouted : q.purge.routed = false) :
    q.left = r.table.capacity - r.cursor ∧ q.routing.debt s = r.debt s := by
  rw [left, hq.routing_eq hrouted, hq.table]
  exact ⟨rfl, rfl⟩

/-- How a call that goes on with the first phase comes to stand at `r`: the deadline cuts the walk
short, or the walk comes to its end at `w` and the parked objects are asked. -/
inductive Walked (s : Schema) (deadline : Option Deadline) (p q : PurgeState) :
    Bool → Routing → Prop where
  | cut {r : Routing} : deadline ≠ none → q.purge.routed = false →
      r.table.capacity - r.cursor < p.left → Walked s deadline p q true r
  | through {w r : Routing} {late : Bool} : Routing.Moves s p.routing w →
      (p.left = 0 → w = p.routing) → w.settle s deadline = .ok (late, r) →
      r.table.capacity ≤ r.cursor → (r.parked = #[] → q.purge.routed = true) →
      Walked s deadline p q late r

/-- A walk, and the asking after it. -/
theorem route_walked (hp : p.purge.Stands p.table) (hreq : p.purge.required = true)
    (hrouted : p.purge.routed = false) {cut : Bool} {looks : Nat}
    (hok : route s deadline (p.purge.placeCursor p.table) p.table p.journal = .ok (cut, looks, q)) :
    q.purge.required = true ∧ q.purge.purged = p.purge.purged ∧
      ∃ r, Routing.Moves s p.routing r ∧ Rests r q ∧ Walked s deadline p q cut r := by
  have hr := routing_stands hp hreq hrouted
  obtain ⟨hreq', hrouted', -, hpurged, hrewind⟩ := p.purge.placeCursor_frame p.table
  obtain ⟨stop, w, hwalk, hmoves, hlow, hhigh, hend, hstop, hzero⟩ :=
    Routing.walk_moves (s := s) deadline p.left 0 p.routing hr
  have hcap : w.table.capacity = p.table.capacity := (Routing.Moves.annotates hmoves).capacity
  have hleft : p.left = p.table.capacity - p.routing.cursor := rfl
  unfold route at hok
  change (Routing.walk s deadline p.left 0 p.routing >>= _) = _ at hok
  rw [hwalk] at hok
  cases stop with
  | true =>
    cases hok
    have hne : p.left ≠ 0 := fun h => absurd (hzero h).1 nofun
    refine ⟨hreq'.trans hreq, hpurged, w, hmoves,
      ⟨rfl, rfl, rfl, .inl ⟨hrouted'.trans hrouted, hrewind, rfl⟩⟩,
      .cut (fun hd => absurd (hstop hd) nofun) (hrouted'.trans hrouted) ?_⟩
    omega
  | false =>
    change (w.settle s deadline >>= _) = _ at hok
    obtain ⟨⟨late, r⟩, hsettle, hok⟩ := except_bind_ok hok
    cases hok
    obtain ⟨hmoves', hcursor, -⟩ := Routing.settle_moves (Routing.Moves.stands hmoves hr) hsettle
    have hcap' : r.table.capacity = w.table.capacity := (Routing.Moves.annotates hmoves').capacity
    have hover : r.table.capacity ≤ r.cursor := by
      have := hend rfl
      omega
    refine ⟨?_, ?_, r, hmoves.trans hmoves', ?_,
      .through hmoves (fun hz => (hzero hz).2) hsettle hover ?_⟩
    all_goals unfold endRouting; split
    · exact hreq'.trans hreq
    · exact hreq'.trans hreq
    · exact hpurged
    · exact hpurged
    · rename_i hempty
      exact ⟨rfl, rfl, rfl, .inr ⟨rfl, rfl, Array.isEmpty_iff.mp hempty, hover⟩⟩
    · exact ⟨rfl, rfl, rfl, .inl ⟨hrouted'.trans hrouted, hrewind, rfl⟩⟩
    · exact fun _ => rfl
    · rename_i hparked
      exact fun h => absurd (Array.isEmpty_iff.mpr h) hparked

/-- Whether a call comes to the end of the first phase, and that it gets on with it if no object is
waited for without end. -/
theorem route_routes (hp : p.purge.Stands p.table) (hreq : p.purge.required = true)
    (hrouted : p.purge.routed = false) {cut : Bool} {looks : Nat}
    (hok : route s deadline (p.purge.placeCursor p.table) p.table p.journal = .ok (cut, looks, q)) :
    Routes s p q ∧ (deadline = none → cut = false ∧ q.purge.routed = true) ∧
      (s.Patient → deadline ≠ none → Before s q p) := by
  obtain ⟨hreq', hpurged, r, hmoves, hrests, hwalked⟩ := route_walked hp hreq hrouted hok
  have hr := routing_stands hp hreq hrouted
  refine ⟨⟨hreq', hpurged, .inr ⟨hrouted, r, hmoves, hrests⟩⟩, ?_⟩
  cases hwalked with
  | cut hd hq hless =>
    refine ⟨fun h => absurd h hd, fun _ _ => .inr ⟨hq.trans hrouted.symm, .inl ?_⟩⟩
    rw [(hrests.routing (s := s) hq).1]
    exact hless
  | @through w r cut hwalk hzero hsettle hover hend =>
    obtain ⟨-, -, hnone, hdebt⟩ := Routing.settle_moves (Routing.Moves.stands hwalk hr) hsettle
    refine ⟨fun hd => ⟨(hnone hd).1, hend (hnone hd).2⟩, fun hs hd => ?_⟩
    cases hq : q.purge.routed with
    | true => exact .inl ⟨hrouted, hq⟩
    | false =>
      obtain ⟨hleft, hdebt'⟩ := hrests.routing (s := s) hq
      refine .inr ⟨hq.trans hrouted.symm, ?_⟩
      rw [hleft, hdebt']
      by_cases hz : p.left = 0
      · have hless := hdebt hs hd
        rw [hzero hz] at hless
        have hpos : r.debt s ≠ 0 := by
          intro h
          rw [hend (Routing.parked_of_debt h)] at hq
          cases hq
        have hsize : p.routing.parked.size ≠ 0 := by
          intro h
          rw [Array.size_eq_zero_iff] at h
          have : p.routing.debt s = 0 := by simp [Routing.debt, h]
          omega
        exact .inr ⟨by omega, by omega⟩
      · exact .inl (by omega)

theorem firstPhase_routes (hp : p.purge.Stands p.table) (hreq : p.purge.required = true)
    {cut : Bool} {looks : Nat} (hok : p.firstPhase s deadline = .ok (cut, looks, q)) :
    Routes s p q ∧ (deadline = none → cut = false ∧ q.purge.routed = true) ∧
      (s.Patient → cut = false ∧ q.purge.routed = true ∨ Before s q p) := by
  obtain ⟨hreq', hrouted, -, hpurged, -⟩ := p.purge.placeCursor_frame p.table
  unfold firstPhase at hok
  dsimp only at hok
  split at hok
  · rename_i hr
    cases hok
    exact ⟨⟨hreq'.trans hreq, hpurged, .inl ⟨hrouted ▸ hr, rfl⟩⟩, fun _ => ⟨rfl, hr⟩,
      fun _ => .inl ⟨rfl, hr⟩⟩
  · rename_i hr
    rw [Bool.not_eq_true, hrouted] at hr
    obtain ⟨hroutes, hnone, hbefore⟩ := route_routes hp hreq hr hok
    refine ⟨hroutes, hnone, fun hs => ?_⟩
    cases hd : deadline with
    | none => exact .inl (hnone hd)
    | some d => exact .inr (hbefore hs (by simp [hd]))

theorem firstPhase_ok (hs : deadline = none → s.Patient) (hp : p.purge.Stands p.table)
    (hreq : p.purge.required = true) :
    ∃ cut looks q, p.firstPhase s deadline = .ok (cut, looks, q) := by
  obtain ⟨-, hrouted, -⟩ := p.purge.placeCursor_frame p.table
  unfold firstPhase
  dsimp only
  split
  · exact ⟨_, _, _, rfl⟩
  · rename_i hr
    rw [Bool.not_eq_true, hrouted] at hr
    have hstands := routing_stands hp hreq hr
    obtain ⟨stop, w, hwalk, hmoves, -⟩ :=
      Routing.walk_moves (s := s) deadline p.left 0 p.routing hstands
    unfold route
    change ∃ cut looks q, (Routing.walk s deadline p.left 0 p.routing >>= _) = _
    rw [hwalk]
    cases stop with
    | true => exact ⟨_, _, _, rfl⟩
    | false =>
      obtain ⟨late, r, hsettle⟩ :=
        Routing.settle_ok (Routing.Moves.stands hmoves hstands) hs
      change ∃ cut looks q, (w.settle s deadline >>= _) = _
      rw [hsettle]
      exact ⟨_, _, _, rfl⟩

def sweeping (looks : Nat) (q : PurgeState) : Sweep :=
  ⟨q.table, (q.purge.placeCursor q.table).cursor, 0, looks⟩

structure Sweeps (looks : Nat) (q f : PurgeState) (ended : Bool) (w : Sweep) : Prop where
  clears : (q.sweeping looks).Clears w
  table : f.table = w.table
  journal : f.journal = q.journal
  purge : f.purge = { q.purge.placeCursor q.table with
    cursor := w.cursor, purged := q.purge.purged + w.freed }
  exhausted : ended = true → q.table.capacity ≤ w.cursor
  gains : ended = true ∨ q.table.capacity - w.cursor <
    q.table.capacity - (q.purge.placeCursor q.table).cursor

theorem secondPhase_sweeps (hq : q.purge.Stands q.table) (hreq : q.purge.required = true)
    (hrouted : q.purge.routed = true) (deadline : Option Deadline) (looks : Nat) :
    ∃ ended f w, q.secondPhase deadline false looks = .ok (ended, f) ∧ Sweeps looks q f ended w ∧
      (deadline = none → ended = true) := by
  obtain ⟨-, hripe, -⟩ := hq.ripe hreq hrouted
  obtain ⟨-, -, -, hpurged, -⟩ := q.purge.placeCursor_frame q.table
  obtain ⟨ended, w, hwalk, hclears, hlow, hend, hd⟩ := Sweep.walk_clears deadline
    (q.table.capacity - (q.purge.placeCursor q.table).cursor) (q.sweeping looks) hq.tidy hripe
  unfold secondPhase sweep
  rw [hrouted]
  change ∃ ended f w', ((Sweep.walk deadline _ (q.sweeping looks) >>= _) >>= _) = _ ∧ _
  rw [hwalk]
  refine ⟨ended, _, w, rfl, ⟨hclears, rfl, rfl, ?_, fun he => ?_, ?_⟩, fun h => hd (.inl h)⟩
  · change { q.purge.placeCursor q.table with
      cursor := w.cursor, purged := (q.purge.placeCursor q.table).purged + w.freed } = _
    rw [hpurged]
  · have := hend he
    change w.cursor = (q.purge.placeCursor q.table).cursor + _ at this
    omega
  · cases ended with
    | true => exact .inl rfl
    | false =>
      have hne : q.table.capacity - (q.purge.placeCursor q.table).cursor ≠ 0 :=
        fun hz => absurd (hd (.inr hz)) nofun
      change (q.purge.placeCursor q.table).cursor + _ ≤ _ at hlow
      omega

end PurgeState

end TracingHeap
