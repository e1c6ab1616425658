import TracingHeap.Proofs.Schema.Reports
import TracingHeap.Proofs.Table.Basic

namespace TracingHeap

namespace Table

/-- The two tables hold the same objects, each related to what it was. -/
structure Evolves (R : Handle → Object → Object → Prop) (t t' : Table) : Prop where
  boundary : t'.boundary = t.boundary
  tidy : t.Tidy → t'.Tidy
  gone : ∀ h, t.get? h = none → t'.get? h = none
  kept : ∀ h o, t.get? h = some o → ∃ o', t'.get? h = some o' ∧ R h o o'

namespace Evolves

variable {R S T : Handle → Object → Object → Prop} {t t' t'' : Table} {g h : Handle} {o o' : Object}

theorem isPermanent (e : Evolves R t t') (h : Handle) : t'.isPermanent h = t.isPermanent h := by
  simp [Table.isPermanent, e.boundary]

/-- Every object of the later table was there before. -/
theorem back (e : Evolves R t t') (ho : t'.get? h = some o') :
    ∃ o, t.get? h = some o ∧ R h o o' := by
  cases hg : t.get? h with
  | none =>
    rw [e.gone h hg] at ho
    cases ho
  | some o =>
    obtain ⟨p, hp, hr⟩ := e.kept h o hg
    rw [ho] at hp
    cases hp
    exact ⟨o, rfl, hr⟩

theorem of_some (e : Evolves R t t') (ho : t.get? h = some o) (ho' : t'.get? h = some o') :
    R h o o' := by
  obtain ⟨p, hp, hr⟩ := e.kept h o ho
  rw [ho'] at hp
  cases hp
  exact hr

/-- A flag that every object has kept is the same under every handle. -/
theorem has_eq {f : Flag} (e : Evolves R t t')
    (hr : ∀ h o p, t.get? h = some o → R h o p → p.has f = o.has f) (h : Handle) :
    t'.has h f = t.has h f := by
  cases hg : t.get? h with
  | none => simp [has, hg, e.gone h hg]
  | some o =>
    obtain ⟨p, hp, h1⟩ := e.kept h o hg
    rw [has_of_get? hg, has_of_get? hp, hr h o p hg h1]

theorem refl (hr : ∀ h o, t.get? h = some o → R h o o) : Evolves R t t :=
  ⟨rfl, id, fun _ h => h, fun h o ho => ⟨o, ho, hr h o ho⟩⟩

theorem trans (e : Evolves R t t') (e' : Evolves S t' t'')
    (hr : ∀ h o p q, t.get? h = some o → R h o p → S h p q → T h o q) : Evolves T t t'' := by
  refine ⟨e'.boundary.trans e.boundary, fun ht => e'.tidy (e.tidy ht),
    fun h hn => e'.gone h (e.gone h hn), fun h o ho => ?_⟩
  obtain ⟨p, hp, h1⟩ := e.kept h o ho
  obtain ⟨q, hq, h2⟩ := e'.kept h p hp
  exact ⟨q, hq, hr h o p q ho h1 h2⟩

theorem mono (e : Evolves R t t') (hr : ∀ h o p, t.get? h = some o → R h o p → S h o p) :
    Evolves S t t' := by
  refine ⟨e.boundary, e.tidy, e.gone, fun h o ho => ?_⟩
  obtain ⟨p, hp, h1⟩ := e.kept h o ho
  exact ⟨p, hp, hr h o p ho h1⟩

/-- A change of one object. -/
theorem modify {f : Object → Object} (hf : ∀ o, (f o).handle = o.handle)
    (hself : ∀ o, t.get? g = some o → R g o (f o))
    (hr : ∀ h o, t.get? h = some o → h ≠ g → R h o o) : Evolves R t (t.modify g f) := by
  refine ⟨rfl, fun ht => ht.modify f hf, fun h hn => ?_, fun h o ho => ?_⟩
  · rw [get?_modify, hn]
    simp
  · rw [get?_modify, ho]
    split
    · rename_i he
      subst he
      exact ⟨f o, rfl, hself o ho⟩
    · rename_i he
      exact ⟨o, rfl, hr h o ho he⟩

end Evolves

structure Frame (t t' : Table) : Prop where
  size : t'.slots.size = t.slots.size
  free : t'.free = t.free
  live : t'.live = t.live

namespace Frame

variable {t t' t'' : Table}

theorem refl (t : Table) : t.Frame t := ⟨rfl, rfl, rfl⟩

theorem trans (a : t.Frame t') (b : t'.Frame t'') : t.Frame t'' :=
  ⟨b.size.trans a.size, b.free.trans a.free, b.live.trans a.live⟩

theorem symm (a : t.Frame t') : t'.Frame t := ⟨a.size.symm, a.free.symm, a.live.symm⟩

theorem modify (t : Table) (h : Handle) (f : Object → Object) : t.Frame (t.modify h f) :=
  ⟨size_modify t h f, rfl, rfl⟩

end Frame

/-- A table is known by its slots as they are found under the handles, and by its frame. -/
theorem ext_get? {t t' : Table} (ht : t.Tidy) (ht' : t'.Tidy) (hf : t.Frame t')
    (hb : t'.boundary = t.boundary) (hget : ∀ h, t'.get? h = t.get? h) : t' = t := by
  have hslot : ∀ i, t'.slot? i = t.slot? i := by
    intro i
    refine Option.ext fun o => ⟨fun ho => ?_, fun ho => ?_⟩
    · have hi := ht'.placed i o ho
      rw [← hi] at ho ⊢
      exact (hget o.handle).symm.trans ho
    · have hi := ht.placed i o ho
      rw [← hi] at ho ⊢
      exact (hget o.handle).trans ho
  have hslots : t'.slots = t.slots := by
    refine Array.ext hf.size fun i h1 h2 => ?_
    have hi := hslot i
    simpa [slot?, h1, h2] using hi
  obtain ⟨slots, free, boundary, live⟩ := t
  obtain ⟨slots', free', boundary', live'⟩ := t'
  have hfree : free' = free := hf.free
  have hlive : live' = live := hf.live
  dsimp only at hslots hb
  rw [hslots, hfree, hlive, hb]

end Table

namespace Object

/-- The object has lost some of its references, all of them to dead objects, and otherwise has the
cells it had. -/
structure Thins (s : Schema) (dead : Handle → Prop) (o o' : Object) : Prop extends o.Same o' where
  fits : s.Fits o → s.Fits o'
  slot : ∀ a, o'.slot? a = o.slot? a ∨
    ∃ g, o.slot? a = some (some g) ∧ dead g ∧ o'.slot? a = some none
  emptied : ∃ as, o'.cells = Cell.clearAll o.cells as

namespace Thins

variable {s : Schema} {dead dead' : Handle → Prop} {o p q : Object} {a : Address} {g : Handle}

/-- Whatever is done to an object without touching its cells. -/
theorem of_cells (hs : o.Same p) (hc : p.cells = o.cells) : o.Thins s dead p := by
  refine ⟨hs, ?_, fun a => .inl (by rw [slot?, slot?, hc]), [], hc⟩
  intro hf
  unfold Schema.Fits at hf ⊢
  rwa [hs.classId, hc]

theorem refl (o : Object) : o.Thins s dead o := of_cells ⟨rfl, rfl, rfl⟩ rfl

theorem clearSlot (hs : s.Fits o → s.Fits (o.clearSlot a))
    (hg : o.slot? a = some (some g)) (hd : dead g) : o.Thins s dead (o.clearSlot a) := by
  refine ⟨⟨rfl, rfl, rfl⟩, hs, fun b => ?_, [a], rfl⟩
  rw [slot?_clearSlot]
  by_cases hb : b = a
  · subst hb
    exact .inr ⟨g, hg, hd, by simp [hg]⟩
  · exact .inl (by simp [hb])

theorem trans (h : o.Thins s dead p) (h' : p.Thins s dead' q) (hd : ∀ g, dead' g → dead g) :
    o.Thins s dead q := by
  refine ⟨⟨h'.handle.trans h.handle, h'.classId.trans h.classId, h'.name.trans h.name⟩,
    fun hf => h'.fits (h.fits hf), fun a => ?_, ?_⟩
  · rcases h.slot a with e | ⟨g, hg, hdead, e⟩
    · rcases h'.slot a with e' | ⟨g, hg, hdead, e'⟩
      · exact .inl (e'.trans e)
      · exact .inr ⟨g, e ▸ hg, hd g hdead, e'⟩
    · rcases h'.slot a with e' | ⟨g', hg', -⟩
      · exact .inr ⟨g, hg, hdead, e'.trans e⟩
      · rw [e] at hg'
        cases hg'
  · obtain ⟨as, has⟩ := h.emptied
    obtain ⟨bs, hbs⟩ := h'.emptied
    refine ⟨as ++ bs, ?_⟩
    rw [hbs, has, Cell.clearAll, Cell.clearAll, Cell.clearAll, List.foldl_append]

/-- Two states of an object that has lost references have the same cells if they have the same slots. -/
theorem cells_ext (h : o.Thins s dead p) (h' : o.Thins s dead' q)
    (hslots : ∀ a, p.slot? a = q.slot? a) : p.cells = q.cells := by
  obtain ⟨as, has⟩ := h.emptied
  obtain ⟨bs, hbs⟩ := h'.emptied
  rw [has, hbs]
  apply Cell.clearAll_ext
  intro a
  rw [← has, ← hbs]
  exact hslots a

/-- A reference of the later object was there before. -/
theorem slot_back (h : o.Thins s dead p) (hp : p.slot? a = some (some g)) :
    o.slot? a = some (some g) := by
  rcases h.slot a with e | ⟨g', -, -, e⟩
  · rw [← e, hp]
  · rw [hp] at e
    cases e

/-- A reference to an object that is not dead stays. -/
theorem slot_stays (h : o.Thins s dead p) (ho : o.slot? a = some (some g)) (hg : ¬ dead g) :
    p.slot? a = some (some g) := by
  rcases h.slot a with e | ⟨g', hg', hd, -⟩
  · rw [e, ho]
  · rw [ho] at hg'
    cases hg'
    exact absurd hd hg

/-- A slot that holds a reference was reported before as it is now. -/
theorem reports_back {k : Strength} (h : o.Thins s dead p) (hs : s.Regular) (hf : s.Fits o)
    (hrep : s.Reports p a k) (hp : p.slot? a = some (some g)) : s.Reports o a k :=
  hrep.steady hs hf (h.fits hf) h.toSame (h.slot_back hp) hp

/-- A slot that still holds a reference is reported as it was. -/
theorem reports_stays {k : Strength} (h : o.Thins s dead p) (hs : s.Regular) (hf : s.Fits o)
    (hrep : s.Reports o a k) (hp : p.slot? a = some (some g)) : s.Reports p a k :=
  hrep.steady hs (h.fits hf) hf ⟨h.handle.symm, h.classId.symm, h.name.symm⟩ hp (h.slot_back hp)

end Thins

end Object

namespace Table

variable {s : Schema} {dead : Handle → Prop} {t t' : Table} {g h : Handle} {o : Object}
  {R : Handle → Object → Object → Prop} {site : Site}

theorem slotAt?_eq {a : Address} (ho : t.get? h = some o) : t.slotAt? ⟨h, a⟩ = o.slot? a := by
  simp [slotAt?, ho]

/-- An emptied slot holds no reference. -/
theorem slotAt?_clearSite_ne (t : Table) (site : Site) (g : Handle) :
    (t.clearSite site).slotAt? site ≠ some (some g) := by
  intro hs
  obtain ⟨h, a⟩ := site
  cases ho : t.get? h with
  | none => simp [slotAt?, clearSite, get?_modify_self, ho] at hs
  | some o =>
    have hnew : (t.clearSite ⟨h, a⟩).get? h = some (o.clearSlot a) := by
      rw [clearSite, get?_modify_self, ho]
      rfl
    rw [slotAt?_eq hnew, Object.slot?_clearSlot, if_pos rfl] at hs
    cases hslot : o.slot? a <;> simp [hslot] at hs

/-- What a slot refers to, it referred to before. -/
theorem Evolves.slotAt?_back (e : Evolves R t t') (hr : ∀ h o o', R h o o' → o.Thins s dead o')
    (hs : t'.slotAt? site = some (some g)) : t.slotAt? site = some (some g) := by
  obtain ⟨h, a⟩ := site
  cases ho : t.get? h with
  | none => simp [slotAt?, e.gone h ho] at hs
  | some o =>
    obtain ⟨o', ho', hR⟩ := e.kept h o ho
    rw [slotAt?_eq ho'] at hs
    rw [slotAt?_eq ho]
    exact (hr h o o' hR).slot_back hs

end Table

/-- A reference of an object to another, of a strength that the classes report. -/
def Edge (s : Schema) (t : Table) (h : Handle) (k : Strength) (g : Handle) : Prop :=
  ∃ o a, t.get? h = some o ∧ s.Reports o a k ∧ o.slot? a = some (some g)

namespace Edge

variable {s : Schema} {dead : Handle → Prop} {t t' : Table} {g h : Handle} {k : Strength}
  {R : Handle → Object → Object → Prop}

/-- Where objects only lose references, every edge was there before. -/
theorem back (hs : s.Regular) (hfit : ∀ h o, t.get? h = some o → s.Fits o)
    (e : Table.Evolves R t t') (hr : ∀ h o o', R h o o' → o.Thins s dead o')
    (he : Edge s t' h k g) : Edge s t h k g := by
  obtain ⟨o', a, ho', hrep, hslot⟩ := he
  obtain ⟨o, ho, hR⟩ := e.back ho'
  have ht := hr h o o' hR
  exact ⟨o, a, ho, ht.reports_back hs (hfit h o ho) hrep hslot, ht.slot_back hslot⟩

/-- Where objects only lose references to the dead, an edge to an object that is not dead stays. -/
theorem stays (hs : s.Regular) (hfit : ∀ h o, t.get? h = some o → s.Fits o)
    (e : Table.Evolves R t t') (hr : ∀ h o o', R h o o' → o.Thins s dead o')
    (he : Edge s t h k g) (hg : ¬ dead g) : Edge s t' h k g := by
  obtain ⟨o, a, ho, hrep, hslot⟩ := he
  obtain ⟨o', ho', hR⟩ := e.kept h o ho
  have ht := hr h o o' hR
  have hslot' := ht.slot_stays hslot hg
  exact ⟨o', a, ho', ht.reports_stays hs (hfit h o ho) hrep hslot', hslot'⟩

end Edge

end TracingHeap
