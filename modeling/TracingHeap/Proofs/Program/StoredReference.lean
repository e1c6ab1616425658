import TracingHeap.Proofs.Collection.Survivors

namespace TracingHeap

namespace Table

/-- The second table has objects of the first, each with no more than references lost, and all that the
permanent pool had. -/
structure Culls (s : Schema) (t t' : Table) : Prop where
  boundary : t'.boundary = t.boundary
  back : ∀ h o', t'.get? h = some o' → ∃ o, t.get? h = some o ∧ o.Thins s (fun _ => True) o'
  pooled : ∀ h, t.isPermanent h = true → t'.contains h = t.contains h

variable {s : Schema} {t t' t'' : Table} {h : Handle}

theorem Culls.refl (t : Table) : t.Culls s t := ⟨rfl, fun _ o ho => ⟨o, ho, .refl o⟩, fun _ _ => rfl⟩

theorem Culls.isPermanent (a : t.Culls s t') (h : Handle) : t'.isPermanent h = t.isPermanent h := by
  rw [Table.isPermanent, Table.isPermanent, a.boundary]

theorem Culls.trans (a : t.Culls s t') (b : t'.Culls s t'') : t.Culls s t'' := by
  refine ⟨b.boundary.trans a.boundary, fun h q hq => ?_, fun h hp => ?_⟩
  · obtain ⟨p, hp, hpq⟩ := b.back h q hq
    obtain ⟨o, ho, hop⟩ := a.back h p hp
    exact ⟨o, ho, hop.trans hpq fun _ => id⟩
  · rw [b.pooled h ((a.isPermanent h).trans hp), a.pooled h hp]

theorem Spares.culls (a : t.Spares t') : t.Culls s t' := by
  refine ⟨a.boundary, fun h o' ho' => ?_, a.pooled⟩
  obtain ⟨o, ho, hw⟩ := a.back h o' ho'
  exact ⟨o, ho, .of_cells hw.toSame hw.cells⟩

theorem Evolves.culls {R : Handle → Object → Object → Prop} {dead : Handle → Prop}
    (a : t.Evolves R t') (hR : ∀ h o o', R h o o' → o.Thins s dead o') : t.Culls s t' := by
  refine ⟨a.boundary, fun h o' ho' => ?_, fun h _ => ?_⟩
  · obtain ⟨o, ho, hr⟩ := a.back ho'
    exact ⟨o, ho, (Object.Thins.refl o).trans (hR h o o' hr) fun _ _ => trivial⟩
  · rw [Bool.eq_iff_iff, contains_iff, contains_iff]
    refine ⟨fun ⟨o', ho'⟩ => ?_, fun ⟨o, ho⟩ => ?_⟩
    · obtain ⟨o, ho, -⟩ := a.back ho'
      exact ⟨o, ho⟩
    · obtain ⟨o', ho', -⟩ := a.kept h o ho
      exact ⟨o', ho'⟩

/-- What an object holds that is still there is what it held, or nothing. -/
theorem Culls.slot (a : t.Culls s t') {x : Site} {r : Slot} (hs : t.slotAt? x = some r)
    (hx : t'.contains x.object = true) : t'.slotAt? x = some r ∨ t'.slotAt? x = some none := by
  obtain ⟨o', ho'⟩ := contains_iff.mp hx
  obtain ⟨o, ho, hthin⟩ := a.back x.object o' ho'
  rw [slotAt?_eq ho] at hs
  rw [slotAt?_eq ho']
  exact (hthin.slot x.address).imp (·.trans hs) fun ⟨_, _, _, hnone⟩ => hnone

end Table

namespace Collector

variable {c d : Collector} {op : Operation} {reply : Reply} {keep : Flags} {full : Bool}
  {stats : Statistics}

theorem condemn_culls (hc : c.Sound) (hok : c.condemn keep = .ok (stats, d)) :
    c.table.Culls c.schema d.table := by
  obtain ⟨t, hout, hdrops⟩ := condemn_outlasts hc hok
  have hfirst : c.table.Culls c.schema t := Table.Evolves.culls hout fun _ _ _ hr => hr.1.toThins
  exact hfirst.trans (Table.Evolves.culls hdrops fun _ _ _ hr => hr.1)

theorem collect_culls (hc : c.Sound) (hs : c.Standing) (hok : c.collect keep full = .ok (stats, d)) :
    c.table.Culls c.schema d.table := by
  obtain ⟨n, b, hfinish, found, m, hcondemn, freed, e, hfreed, -, rfl⟩ := collect_ok hok
  obtain ⟨hfirst, hb⟩ := hs.first_phase hc hfinish
  obtain ⟨hm, -⟩ := hb.sound.condemned hcondemn
  have hmark := condemn_culls hb.sound hcondemn
  rw [hfirst.schema] at hmark
  exact (hfirst.spares.culls.trans hmark).trans (last_phase hm hfreed).spares.culls

theorem perform_culls (hc : c.Sound) (hs : c.Standing) (hop : op.collects = true)
    (hok : c.perform op = .ok (reply, d)) : c.table.Culls c.schema d.table := by
  obtain ⟨lock, misses, hcases⟩ := perform_collects hop hok
  have hc' := hc.relocked lock misses
  have hs' : (c.relocked lock misses).Standing := hs
  rcases hcases with rfl | ⟨keep, full, stats, hd⟩ | ⟨deadline, progress, hd⟩ | ⟨-, n, e, hd, rfl⟩
  · exact .refl _
  · exact collect_culls (c := c.relocked lock misses) hc' hs' hd
  · exact ((runPurge_spec hc' deadline).ok hd).spares.culls
  · exact ((finishPurge_spec hc').ok hd).spares.culls

def Reported (c : Collector) (x : Site) (k : Strength) : Prop :=
  ∃ o, c.table.get? x.object = some o ∧ c.schema.Reports o x.address k

def reports (c : Collector) (x : Site) (k : Strength) : Bool :=
  match c.references x.object with
  | .ok found => found.any fun p => p.1.strength == k && p.1.address == x.address
  | .error _ => false

theorem reported_of_reports {x : Site} {k : Strength} (h : c.reports x k = true) :
    c.Reported x k := by
  unfold reports at h
  split at h
  · rename_i found hfound
    obtain ⟨p, hp, htest⟩ := List.any_eq_true.mp h
    simp only [Bool.and_eq_true, beq_iff_eq] at htest
    obtain ⟨hk, ha⟩ := htest
    obtain ⟨o, ho, hrep, -⟩ := reports_of_references hfound hp
    exact ⟨o, ho, hk ▸ ha ▸ hrep⟩
  · cases h

end Collector

/-- Nothing is written to the slot by the call, and the object with the slot is there after it. -/
structure Operation.Leaves (x : Site) (c : Collector) (op : Operation) (d : Collector) : Prop where
  allowed : op.Allowed c
  unwritten : ¬ op.Writes c.table x
  stays : d.table.contains x.object = true

namespace Operation.Leaves

variable {c d : Collector} {x : Site} {op : Operation} {reply : Reply} {k : Strength} {r : Slot}
  (a : op.Leaves x c d) (hc : c.Sound)
include a hc

/-- The slot is left as it is, or emptied. -/
theorem slot (hs : c.Standing) (hok : c.perform op = .ok (reply, d))
    (hslot : c.table.slotAt? x = some r) :
    d.table.slotAt? x = some r ∨ d.table.slotAt? x = some none := by
  cases hop : op.collects with
  | true => exact (Collector.perform_culls hc hs hop hok).slot hslot a.stays
  | false =>
    exact .inl ((Collector.perform_respects hc a.allowed hop hok).slots x r a.unwritten hslot)

/-- The slot is reported as it was, if it still holds a reference. -/
theorem reported {g g' : Handle} (hs : c.Standing) (hok : c.perform op = .ok (reply, d))
    (hrep : c.Reported x k) (hslot : c.table.slotAt? x = some (some g))
    (hslot' : d.table.slotAt? x = some (some g')) : d.Reported x k := by
  obtain ⟨o, ho, hrep⟩ := hrep
  obtain ⟨o', ho'⟩ := Table.contains_iff.mp a.stays
  have hd := (Collector.perform_keeps hc a.allowed).ok hok
  have hsame : o.Same o' := by
    cases hop : op.collects with
    | true =>
      obtain ⟨p, hp, hthin⟩ := (Collector.perform_culls hc hs hop hok).back x.object o' ho'
      cases ho.symm.trans hp
      exact hthin.toSame
    | false =>
      obtain ⟨p, hp, hstage⟩ :=
        (Collector.perform_respects hc a.allowed hop hok).abides.kept x.object o ho
      cases ho'.symm.trans hp
      exact hstage.toSame
  have hold := hc.settled.orderly
  have hnew := hd.settled.orderly
  -- the classes that there are keep their fields
  have hfit : d.schema.Fits o ∧ d.schema.Reports o x.address k := by
    rcases Collector.perform_classes hc a.allowed hok with he | ⟨spec, id, -, hmade⟩
    · rw [he]
      exact ⟨hold.fits x.object o ho, hrep⟩
    · obtain ⟨e, he, -⟩ := Schema.register_ok hmade
      have hfits := hold.fits x.object o ho
      rw [he]
      exact ⟨hfits.push hold.regular e, (hfits.reports_push e).mpr hrep⟩
  rw [Table.slotAt?_eq ho] at hslot
  rw [Table.slotAt?_eq ho'] at hslot'
  exact ⟨o', ho', hfit.2.steady hnew.regular (hnew.fits x.object o' ho') hfit.1
    ⟨hsame.handle.symm, hsame.classId.symm, hsame.name.symm⟩ hslot' hslot⟩

end Operation.Leaves

namespace Collector

/-- The call frees an object `g` outside the permanent pool. The object `p` was in the pool, or it is left
flagged. -/
structure Frees (p g : Handle) (c : Collector) (op : Operation) (d : Collector) : Prop where
  collects : op.collects = true
  collectable : c.table.isPermanent g = false
  gone : d.table.contains g = false
  unheeded : c.table.isPermanent p = true ∨ d.table.isUnreachable p = true

/-- A call that leaves a slot with its reference frees the target only if the references of the object
with the slot do not count. -/
theorem frees_of_gone {c d : Collector} {x : Site} {g : Handle} {op : Operation} {reply : Reply}
    (hc : c.Sound) (hs : c.Standing) (a : op.Leaves x c d) (hok : c.perform op = .ok (reply, d))
    (hrep : d.Reported x .strong) (hslot : d.table.slotAt? x = some (some g))
    (hthere : c.table.contains g = true) (hgone : d.table.contains g = false) :
    Frees x.object g c op d := by
  have hd := (perform_keeps hc a.allowed).ok hok
  have hop : op.collects = true := by
    cases hop : op.collects with
    | true => rfl
    | false =>
      obtain ⟨o, ho⟩ := Table.contains_iff.mp hthere
      obtain ⟨o', ho', -⟩ := (perform_respects hc a.allowed hop hok).abides.kept g o ho
      rw [Table.contains_iff.mpr ⟨o', ho'⟩] at hgone
      cases hgone
  have hculls := perform_culls hc hs hop hok
  refine ⟨hop, ?_, hgone, ?_⟩
  · cases hp : c.table.isPermanent g with
    | false => rfl
    | true =>
      rw [hculls.pooled g hp, hthere] at hgone
      cases hgone
  · -- otherwise the target would be there, because the heap is settled
    obtain ⟨o, ho, hrep⟩ := hrep
    rw [Table.slotAt?_eq ho] at hslot
    cases hp : c.table.isPermanent x.object with
    | true => exact .inl rfl
    | false =>
      right
      rw [Table.isUnreachable_of_get? ho]
      cases hu : o.isUnreachable with
      | true => rfl
      | false =>
        have hedge : Edge d.schema d.table x.object .strong g := ⟨o, x.address, ho, hrep, hslot⟩
        obtain ⟨q, hq, -⟩ := hd.settled.linked x.object .strong g hedge ⟨o, ho, hu⟩
          (.inr ((hculls.isPermanent x.object).trans hp))
        rw [Table.contains_iff.mpr ⟨q, hq⟩] at hgone
        cases hgone

/-- Calls made one after the other, with what holds of each. -/
inductive Calls (P : Collector → Operation → Collector → Prop) (c : Collector) :
    List Operation → Collector → Prop where
  | start : Calls P c [] c
  | next {ops : List Operation} {d e : Collector} {op : Operation} {reply : Reply} :
    Calls P c ops d → d.perform op = .ok (reply, e) → P d op e → Calls P c (ops ++ [op]) e

/-- The object is there before the calls and after each of them. -/
structure Lasts (g : Handle) (c : Collector) (ops : List Operation) (d : Collector) : Prop where
  first : c.table.contains g = true
  calls : c.Calls (fun _ _ e => e.table.contains g = true) ops d

/-- The object is there until one of the calls frees it. -/
def Loses (p g : Handle) (c : Collector) (ops : List Operation) : Prop :=
  ∃ before op after d e reply, ops = before ++ op :: after ∧ c.Lasts g before d ∧
    d.perform op = .ok (reply, e) ∧ Frees p g d op e

variable {b c d e : Collector} {p g : Handle} {a : Address} {op : Operation} {ops : List Operation}
  {reply : Reply} {x : Site}

theorem Lasts.last (hl : c.Lasts g ops d) : d.table.contains g = true := by
  cases hl.calls with
  | start => exact hl.first
  | next _ _ h => exact h

theorem Loses.next (hl : c.Loses p g ops) (op : Operation) : c.Loses p g (ops ++ [op]) := by
  obtain ⟨before, freeing, after, d, e, reply, rfl, hrest⟩ := hl
  exact ⟨before, freeing, after ++ [op], d, e, reply, by simp, hrest⟩

theorem Calls.reached (hrun : c.Calls (fun d op e => op.Leaves x d e) ops d) (hr : Reached c) :
    Reached d := by
  induction hrun with
  | start => exact hr
  | next _ hok hleaves ih => exact ih.step hleaves.allowed hok

/-- What holds of a slot with a reference between calls that do not write to it. -/
theorem Calls.holds (hrun : c.Calls (fun d op e => op.Leaves x d e) ops d) (hr : Reached c)
    (hrep : c.Reported x .strong) (hslot : c.table.slotAt? x = some (some g))
    (hthere : c.table.contains g = true) :
    d.table.slotAt? x = some none ∨ d.table.slotAt? x = some (some g) ∧ d.Reported x .strong ∧
      (c.Lasts g ops d ∨ c.Loses x.object g ops) := by
  induction hrun with
  | start => exact .inr ⟨hslot, hrep, .inl ⟨hthere, Calls.start⟩⟩
  | @next ops d e op reply hrun hok hleaves ih =>
    have hd := hrun.reached hr
    rcases ih with hnone | ⟨hsome, hrep', hfate⟩
    · exact .inl ((hleaves.slot hd.sound hd.standing hok hnone).elim id id)
    · rcases hleaves.slot hd.sound hd.standing hok hsome with hslot' | hslot'
      · have hrep'' : e.Reported x .strong :=
          hleaves.reported hd.sound hd.standing hok hrep' hsome hslot'
        refine .inr ⟨hslot', hrep'', ?_⟩
        rcases hfate with hlasts | hloses
        · cases hg : e.table.contains g with
          | true => exact .inl ⟨hthere, hlasts.calls.next hok hg⟩
          | false =>
            have hfrees := frees_of_gone hd.sound hd.standing hleaves hok hrep'' hslot' hlasts.last hg
            exact .inr ⟨ops, op, [], d, e, reply, rfl, hlasts, hok, hfrees⟩
        · exact .inr (hloses.next op)
      · exact .inl hslot'

/-- What is stored is there. -/
theorem contains_of_stored (hb : b.Sound)
    (hop : op = .setReference p a.offset (some g) ∨ op = .pushReference p a.offset (some g))
    (hok : b.perform op = .ok (.done, c)) : c.table.contains g = true := by
  have hcollects : op.collects = false := by rcases hop with rfl | rfl <;> rfl
  have hallowed : op.Allowed b := by rcases hop with rfl | rfl <;> exact trivial
  have hwrite : ∃ expected, b.writeReference p a.offset (some g) expected = .ok (.ok (), c) := by
    have hreply : ∀ o : Outcome Unit, Collector.reply (fun _ => .done) o = .ok (.done, c) →
        o = .ok (.ok (), c) := by
      rintro (_ | ⟨_ | _, _⟩) ho <;> cases ho
      rfl
    rcases hop with rfl | rfl
    · exact ⟨_, hreply _ hok⟩
    · exact ⟨_, hreply _ hok⟩
  obtain ⟨expected, hwrite⟩ := hwrite
  have hawake : b.table.Awake g := by
    unfold writeReference at hwrite
    split at hwrite
    · cases hwrite
    · cases hwrite
    · rename_i htarget _
      exact awake_of_checkTarget htarget
  obtain ⟨o, ho, -⟩ := hawake
  obtain ⟨o', ho', -⟩ := (perform_respects hb hallowed hcollects hok).abides.kept g o ho
  exact Table.contains_iff.mpr ⟨o', ho'⟩

end Collector

/-- What becomes of a reference that is stored in a slot reported as strong. As long as nothing is written to
the slot and the object with the slot is there, the slot is empty or holds the reference. If it holds the
reference, the target has been there all along, or a call has freed it that found the object with the slot
in the permanent pool, or left it flagged. A target in the pool is never freed. -/
theorem Reached.stored_reference_holds {b c d : Collector} {p g : Handle} {a : Address}
    {op : Operation} {ops : List Operation} (hr : Reached b)
    (hop : op = .setReference p a.offset (some g) ∨ op = .pushReference p a.offset (some g))
    (hok : b.perform op = .ok (.done, c)) (hrep : c.Reported ⟨p, a⟩ .strong)
    (hslot : c.table.slotAt? ⟨p, a⟩ = some (some g))
    (hrun : c.Calls (fun d op e => op.Leaves ⟨p, a⟩ d e) ops d) :
    d.table.slotAt? ⟨p, a⟩ = some none ∨
      d.table.slotAt? ⟨p, a⟩ = some (some g) ∧ (c.Lasts g ops d ∨ c.Loses p g ops) := by
  have hallowed : op.Allowed b := by rcases hop with rfl | rfl <;> exact trivial
  have hthere := Collector.contains_of_stored hr.sound hop hok
  exact (hrun.holds (hr.step hallowed hok) hrep hslot hthere).imp_right (.imp_right And.right)

open Collector Sample in
/-- A permanent object is made to refer to a root, and a collection leaves both as they are. -/
theorem stored_reference_holds_rooted : ∃ (b c d : Collector) (stats : Statistics), Reached b ∧
    b.perform (.setReference one 0 (some two)) = .ok (.done, c) ∧ c.table.isPermanent one = true ∧
    c.perform (.collect .empty true) = .ok (.collected stats, d) ∧
    (d.table.slotAt? ⟨one, ⟨0, .here⟩⟩ = some none ∨
      d.table.slotAt? ⟨one, ⟨0, .here⟩⟩ = some (some two) ∧
        (c.Lasts two [.collect .empty true] d ∨ c.Loses one two [.collect .empty true])) := by
  have hrun : runsPooled node (nodes 1) (nodes 1 ++ [.addRoot two]) (fun b =>
      match b.perform (.setReference one 0 (some two)) with
      | .ok (.done, c) => !c.isHeld && (c.table.isPermanent one && (c.reports ⟨one, ⟨0, .here⟩⟩ .strong &&
        c.table.slotAt? ⟨one, ⟨0, .here⟩⟩ == some (some two))) &&
          c.leaves .empty true fun d => d.table.contains one
      | _ => false) = true := by
    decide +kernel
  obtain ⟨b, hr, -, hb⟩ :=
    Reached.of_runsPooled node_honest (fun f hf => nomatch hf) (by decide) (by decide) hrun
  split at hb
  · rename_i c hok
    obtain ⟨hbefore, hleaves⟩ := Bool.and_eq_true_iff.mp hb
    simp only [Bool.and_eq_true, Bool.not_eq_true', beq_iff_eq] at hbefore
    obtain ⟨hheld, hperm, hrep, hslot⟩ := hbefore
    obtain ⟨stats, d, hcollect, hstays⟩ := collect_of_leaves hleaves
    have hnext : c.perform (.collect .empty true) = .ok (.collected stats, d) :=
      perform_collect hheld hcollect
    have hrun : c.Calls (fun d op e => op.Leaves ⟨one, ⟨0, .here⟩⟩ d e) [.collect .empty true] d :=
      Calls.start.next hnext ⟨trivial, id, hstays⟩
    exact ⟨b, c, d, stats, hr, hok, hperm, hnext,
      hr.stored_reference_holds (.inl rfl) hok (reported_of_reports hrep) hslot hrun⟩
  · cases hb

open Collector Sample in
/-- A permanent object is made to refer to an object that nothing else refers to. A collection frees the
target and leaves the reference, which leads to nothing then, and to another object later. -/
theorem stored_reference_dangles : ∃ (b c d e : Collector) (stats : Statistics), Reached b ∧
    b.perform (.setReference one 0 (some two)) = .ok (.done, c) ∧ c.table.isPermanent one = true ∧
    c.Reported ⟨one, ⟨0, .here⟩⟩ .strong ∧
    c.perform (.collect .empty true) = .ok (.collected stats, d) ∧
    d.table.slotAt? ⟨one, ⟨0, .here⟩⟩ = some (some two) ∧ d.table.contains two = false ∧
    d.perform (.createObject ⟨0⟩ "late") = .ok (.created two, e) ∧
    e.table.slotAt? ⟨one, ⟨0, .here⟩⟩ = some (some two) := by
  have hrun : runsPooled node (nodes 1) (nodes 1) (fun b =>
      match b.perform (.setReference one 0 (some two)) with
      | .ok (.done, c) => !c.isHeld && (c.table.isPermanent one && c.reports ⟨one, ⟨0, .here⟩⟩ .strong) &&
          c.leaves .empty true fun d => (d.table.slotAt? ⟨one, ⟨0, .here⟩⟩ == some (some two) &&
            !d.table.contains two) && match d.perform (.createObject ⟨0⟩ "late") with
          | .ok (.created h, e) =>
            h == two && e.table.slotAt? ⟨one, ⟨0, .here⟩⟩ == some (some two)
          | _ => false
      | _ => false) = true := by
    decide +kernel
  obtain ⟨b, hr, -, hb⟩ :=
    Reached.of_runsPooled node_honest (fun f hf => nomatch hf) (by decide) (by decide) hrun
  split at hb
  · rename_i c hok
    obtain ⟨hbefore, hleaves⟩ := Bool.and_eq_true_iff.mp hb
    simp only [Bool.and_eq_true, Bool.not_eq_true'] at hbefore
    obtain ⟨hheld, hperm, hrep⟩ := hbefore
    obtain ⟨stats, d, hcollect, hd⟩ := collect_of_leaves hleaves
    have hnext : c.perform (.collect .empty true) = .ok (.collected stats, d) :=
      perform_collect hheld hcollect
    obtain ⟨hafter, hlate⟩ := Bool.and_eq_true_iff.mp hd
    simp only [Bool.and_eq_true, Bool.not_eq_true', beq_iff_eq] at hafter
    split at hlate
    · rename_i h e hcreate
      simp only [Bool.and_eq_true, beq_iff_eq] at hlate
      obtain ⟨rfl, hslot⟩ := hlate
      exact ⟨b, c, d, e, stats, hr, hok, hperm, reported_of_reports hrep, hnext, hafter.1, hafter.2,
        hcreate, hslot⟩
    · cases hlate
  · cases hb

end TracingHeap
