import TracingHeap.Proofs.Trace.Invariant

namespace TracingHeap

namespace Flags

def marks : Flags :=
  (single .unreachable).union ((single .reachableInCluster).union (single .noStrongReference))

theorem getLsbD_remove {i : Nat} (hi : i < 32) (s m : Flags) :
    (s.remove m).bits.getLsbD i = (s.bits.getLsbD i && !m.bits.getLsbD i) := by
  simp [remove, hi]

theorem ext_bits {a b : Flags} (h : ∀ i, i < 32 → a.bits.getLsbD i = b.bits.getLsbD i) : a = b :=
  congrArg Flags.mk (BitVec.eq_of_getLsbD_eq h)

theorem cases_of_marks {i : Nat} (hm : marks.bits.getLsbD i = true) : i = Flag.unreachable.bit ∨
    i = Flag.reachableInCluster.bit ∨ i = Flag.noStrongReference.bit := by
  simp only [marks, union, single, BitVec.getLsbD_or, BitVec.getLsbD_twoPow, Bool.or_eq_true,
    Bool.and_eq_true, decide_eq_true_eq] at hm
  omega

/-- Two words are the same if they agree in the marks and in the rest. -/
theorem ext_marks {a b : Flags} (hrest : a.remove marks = b.remove marks)
    (hu : a.has .unreachable = b.has .unreachable)
    (hr : a.has .reachableInCluster = b.has .reachableInCluster)
    (hn : a.has .noStrongReference = b.has .noStrongReference) : a = b := by
  apply ext_bits
  intro i hi
  have hbit : (a.remove marks).bits.getLsbD i = (b.remove marks).bits.getLsbD i := by rw [hrest]
  rw [getLsbD_remove hi, getLsbD_remove hi] at hbit
  cases hm : marks.bits.getLsbD i with
  | false => simpa [hm] using hbit
  | true =>
    rcases cases_of_marks hm with rfl | rfl | rfl
    · exact hu
    · exact hr
    · exact hn

theorem remove_set {m : Flags} {f : Flag} (hm : m.has f = true) (s : Flags) :
    (s.set f).remove m = s.remove m := by
  apply ext_bits
  intro i hi
  rw [getLsbD_remove hi, getLsbD_remove hi]
  by_cases he : f.bit = i
  · subst he
    have hm' : m.bits.getLsbD f.bit = true := hm
    simp [hm']
  · simp [set, insert, single, BitVec.getLsbD_twoPow, he]

theorem remove_clear {m : Flags} {f : Flag} (hm : m.has f = true) (s : Flags) :
    (s.clear f).remove m = s.remove m := by
  apply ext_bits
  intro i hi
  rw [getLsbD_remove hi, getLsbD_remove hi, clear, getLsbD_remove hi]
  by_cases he : f.bit = i
  · subst he
    have hm' : m.bits.getLsbD f.bit = true := hm
    simp [hm']
  · simp [single, BitVec.getLsbD_twoPow, he]

end Flags

/-- An object is known by what it is, and by its flags, its owner and its cells. -/
theorem Object.eq_of_same {o o' : Object} (hs : o.Same o') (hflags : o'.flags = o.flags)
    (howner : o'.owner = o.owner) (hcells : o'.cells = o.cells) : o' = o := by
  obtain ⟨hhandle, hclass, hname⟩ := hs
  obtain ⟨handle, classId, name, flags, owner, cells⟩ := o
  obtain ⟨handle', classId', name', flags', owner', cells'⟩ := o'
  dsimp only at *
  rw [hhandle, hclass, hname, hflags, howner, hcells]

structure Scope where
  /-- The objects that may be claimed, or flagged as referenced from outside their cluster. -/
  hit : Handle → Prop
  /-- The slots that may be emptied. -/
  cut : Site → Prop
  /-- The slots that may be written down to be looked at again. -/
  soft : Site → Prop

/-- What a trace may do to an object. The flag `noStrongReference` goes with the flag `unreachable`,
or a little later if the object is one of the late ones. -/
structure Object.Struck (w : Scope) (late : Handle → Prop) (h : Handle) (o o' : Object) : Prop
    extends o.Same o' where
  owner : o'.owner = o.owner
  rest : o'.flags.remove .marks = o.flags.remove .marks
  kept : o'.isUnreachable = true → o.isUnreachable = true
  claimed : o.isUnreachable = true → o'.isUnreachable = false →
    w.hit h ∧ (o'.has .noStrongReference = false ∨ late h)
  inCluster : o.has .reachableInCluster = true → o'.has .reachableInCluster = true
  flagged : o'.has .reachableInCluster = true →
    o.has .reachableInCluster = true ∨ w.hit h ∧ o.owner.isSome = true
  fewer : o'.has .noStrongReference = true → o.has .noStrongReference = true
  still : o'.isUnreachable = true → o'.has .noStrongReference = o.has .noStrongReference
  slots : ∀ a, o'.slot? a = o.slot? a ∨ w.cut ⟨h, a⟩ ∧ o'.slot? a = some none

namespace Object

theorem remove_marks_set {f : Flag} (hf : Flags.marks.has f = true) (o : Object) :
    (o.set f).flags.remove .marks = o.flags.remove .marks := Flags.remove_set hf o.flags

theorem remove_marks_clear {f : Flag} (hf : Flags.marks.has f = true) (o : Object) :
    (o.clear f).flags.remove .marks = o.flags.remove .marks := Flags.remove_clear hf o.flags

/-- The flags that are no marks, of two objects that agree in the rest of the word. -/
theorem has_eq_of_rest {o o' : Object} (hrest : o'.flags.remove .marks = o.flags.remove .marks)
    {f : Flag} (hf : Flags.marks.has f = false) : o'.has f = o.has f := by
  have hbit := congrArg (Flags.has · f) hrest
  simpa [has, hf] using hbit

namespace Struck

variable {w : Scope} {late : Handle → Prop} {h : Handle} {o p q : Object} {a : Address}

theorem has (s : o.Struck w late h p) {f : Flag} (hf : Flags.marks.has f = false) :
    p.has f = o.has f := has_eq_of_rest s.rest hf

theorem refl (o : Object) : o.Struck w late h o := by
  refine ⟨⟨rfl, rfl, rfl⟩, rfl, rfl, id, fun hu hu' => ?_, id, .inl, id, fun _ => rfl,
    fun _ => .inl rfl⟩
  rw [hu] at hu'
  cases hu'

theorem trans (s : o.Struck w late h p) (s' : p.Struck w late h q) : o.Struck w late h q := by
  refine ⟨⟨s'.handle.trans s.handle, s'.classId.trans s.classId, s'.name.trans s.name⟩,
    s'.owner.trans s.owner, s'.rest.trans s.rest, s.kept ∘ s'.kept, fun hu hu' => ?_,
    s'.inCluster ∘ s.inCluster, fun hr => ?_, s.fewer ∘ s'.fewer, fun hu => ?_, fun a => ?_⟩
  · cases hp : p.isUnreachable with
    | true => exact s'.claimed hp hu'
    | false =>
      obtain ⟨hhit, hpaid⟩ := s.claimed hu hp
      refine ⟨hhit, hpaid.imp_left fun hn => ?_⟩
      cases hq : q.has .noStrongReference with
      | false => rfl
      | true => rw [s'.fewer hq] at hn; cases hn
  · rcases s'.flagged hr with hp | ⟨hhit, hown⟩
    · exact s.flagged hp
    · exact .inr ⟨hhit, s.owner ▸ hown⟩
  · exact (s'.still hu).trans (s.still (s'.kept hu))
  · rcases s'.slots a with he | ⟨hcut, he⟩
    · rw [he]
      exact s.slots a
    · exact .inr ⟨hcut, he⟩

theorem mono {w' : Scope} {late' : Handle → Prop} (s : o.Struck w late h p)
    (hhit : w.hit h → w'.hit h) (hcut : ∀ a, w.cut ⟨h, a⟩ → w'.cut ⟨h, a⟩) (hlate : late h → late' h) :
    o.Struck w' late' h p :=
  ⟨s.toSame, s.owner, s.rest, s.kept,
    fun hu hu' => (s.claimed hu hu').imp hhit (Or.imp_right hlate), s.inCluster,
    fun hr => (s.flagged hr).imp_right (And.imp_left hhit), s.fewer, s.still,
    fun a => (s.slots a).imp_right (And.imp_left (hcut a))⟩

/-- What is said to have been done late has been done. -/
theorem settle (s : o.Struck w (fun x => x = h ∨ late x) h p)
    (hn : p.has .noStrongReference = false) : o.Struck w late h p :=
  ⟨s.toSame, s.owner, s.rest, s.kept, fun hu hu' => ⟨(s.claimed hu hu').1, .inl hn⟩, s.inCluster,
    s.flagged, s.fewer, s.still, s.slots⟩

theorem unflag (o : Object) (hhit : w.hit h) :
    o.Struck w (fun x => x = h ∨ late x) h (o.clear .unreachable) := by
  refine ⟨⟨rfl, rfl, rfl⟩, rfl, remove_marks_clear (by decide) o, ?_, fun _ _ => ⟨hhit, .inr (.inl rfl)⟩,
    ?_, ?_, ?_, ?_, fun _ => .inl rfl⟩
  all_goals simp +contextual [isUnreachable]

theorem clearNoStrong (hu : o.isUnreachable = false) :
    o.Struck w late h (o.clear .noStrongReference) := by
  refine ⟨⟨rfl, rfl, rfl⟩, rfl, remove_marks_clear (by decide) o, ?_, ?_, ?_, ?_, ?_, ?_,
    fun _ => .inl rfl⟩
  all_goals simp +contextual [isUnreachable] at hu ⊢
  all_goals simp [hu]

theorem setInCluster (hhit : w.hit h) (hown : o.owner.isSome = true) :
    o.Struck w late h (o.set .reachableInCluster) := by
  refine ⟨⟨rfl, rfl, rfl⟩, rfl, remove_marks_set (by decide) o, ?_, ?_, ?_,
    fun _ => .inr ⟨hhit, hown⟩, ?_, ?_, fun _ => .inl rfl⟩
  all_goals simp +contextual [isUnreachable]

theorem clearSlot (hcut : w.cut ⟨h, a⟩) (ha : (o.slot? a).isSome) :
    o.Struck w late h (o.clearSlot a) := by
  refine ⟨⟨rfl, rfl, rfl⟩, rfl, rfl, id, fun hu hu' => ?_, id, .inl, id, fun _ => rfl, fun b => ?_⟩
  · have hsame : o.isUnreachable = false := hu'
    rw [hu] at hsame
    cases hsame
  · rw [slot?_clearSlot]
    by_cases hb : b = a
    · subst hb
      obtain ⟨slot, hs⟩ := Option.isSome_iff_exists.mp ha
      exact .inr ⟨hcut, by simp [hs]⟩
    · exact .inl (by simp [hb])

end Struck

end Object

structure Table.Struck (w : Scope) (late : Handle → Prop) (t t' : Table) : Prop
    extends t.Frame t' where
  objects : t.Evolves (fun h o o' => o.Struck w late h o') t'

namespace Table

/-- The object was claimed between the two tables, and joins the next wave. -/
def Claims (t t' : Table) (g : Handle) : Prop :=
  t.isUnreachable g = true ∧ t'.isUnreachable g = false ∧ t'.has g .clusterRoot = false

def Paired (t : Table) : Prop := ∀ h o, t.get? h = some o → o.has .noStrongReference = true →
  o.isUnreachable = true

namespace Struck

variable {w : Scope} {late : Handle → Prop} {t t' t'' : Table} {g h : Handle} {o o' : Object}
  {site : Site}

theorem refl (t : Table) : t.Struck w late t :=
  ⟨.refl t, .refl fun _ o _ => .refl o⟩

theorem trans (s : t.Struck w late t') (s' : t'.Struck w late t'') : t.Struck w late t'' :=
  ⟨s.toFrame.trans s'.toFrame, s.objects.trans s'.objects fun _ _ _ _ _ h1 h2 => h1.trans h2⟩

theorem modify {f : Object → Object} (hf : ∀ o, (f o).handle = o.handle)
    (hs : ∀ o, t.get? h = some o → o.Struck w late h (f o)) : t.Struck w late (t.modify h f) :=
  ⟨.modify t h f, .modify hf hs fun _ o _ _ => .refl o⟩

theorem isPermanent (s : t.Struck w late t') (h : Handle) : t'.isPermanent h = t.isPermanent h :=
  s.objects.isPermanent h

theorem has (s : t.Struck w late t') {f : Flag} (hf : Flags.marks.has f = false) (g : Handle) :
    t'.has g f = t.has g f :=
  s.objects.has_eq (fun _ _ _ _ hs => hs.has hf) g

theorem isUnreachable (s : t.Struck w late t') (hu : t'.isUnreachable g = true) :
    t.isUnreachable g = true := by
  cases hg : t.get? g with
  | none => simp [Table.isUnreachable, Table.has, s.objects.gone g hg] at hu
  | some o =>
    obtain ⟨o', ho', hs⟩ := s.objects.kept g o hg
    rw [isUnreachable_of_get? ho'] at hu
    rw [isUnreachable_of_get? hg, hs.kept hu]

theorem tenable (s : t.Struck w late t') : t'.Tenable g ↔ t.Tenable g := by
  unfold Tenable
  rw [s.isPermanent, s.has (by decide)]

/-- What a slot refers to, it referred to before. -/
theorem slotAt?_back (s : t.Struck w late t') (hs : t'.slotAt? site = some (some g)) :
    t.slotAt? site = some (some g) := by
  obtain ⟨h, a⟩ := site
  cases ho : t.get? h with
  | none => simp [slotAt?, s.objects.gone h ho] at hs
  | some o =>
    obtain ⟨o', ho', hst⟩ := s.objects.kept h o ho
    rw [slotAt?_eq ho'] at hs
    rw [slotAt?_eq ho]
    rcases hst.slots a with he | ⟨-, he⟩
    · rw [← he, hs]
    · rw [hs] at he
      cases he

/-- What is said to have been done late has been done. -/
theorem settle (s : t.Struck w (fun x => x = h ∨ late x) t')
    (hn : t'.has h .noStrongReference = false) : t.Struck w late t' := by
  refine ⟨s.toFrame, ⟨s.objects.boundary, s.objects.tidy, s.objects.gone, fun g o ho => ?_⟩⟩
  obtain ⟨o', ho', hst⟩ := s.objects.kept g o ho
  refine ⟨o', ho', ?_⟩
  by_cases he : g = h
  · subst he
    rw [has_of_get? ho'] at hn
    exact hst.settle hn
  · exact hst.mono id (fun _ => id) fun hl => hl.resolve_left he

theorem claims_trans (s : t.Struck w late t') (s' : t'.Struck w late t'') :
    t.Claims t'' g ↔ t.Claims t' g ∨ t'.Claims t'' g := by
  have hroot : t''.has g .clusterRoot = t'.has g .clusterRoot := s'.has (by decide) g
  constructor
  · rintro ⟨hu, hu', hr⟩
    cases hmid : t'.isUnreachable g with
    | true => exact .inr ⟨hmid, hu', hr⟩
    | false => exact .inl ⟨hu, hmid, hroot ▸ hr⟩
  · rintro (⟨hu, hu', hr⟩ | ⟨hu, hu', hr⟩)
    · refine ⟨hu, ?_, hroot.trans hr⟩
      cases hlast : t''.isUnreachable g with
      | false => rfl
      | true =>
        rw [s'.isUnreachable hlast] at hu'
        cases hu'
    · exact ⟨s.isUnreachable hu, hu', hr⟩

/-- What has been claimed might be. -/
theorem hit_of_claims (s : t.Struck w late t') (hc : t.Claims t' g) : w.hit g := by
  obtain ⟨hu, hu', -⟩ := hc
  cases hg : t.get? g with
  | none => simp [Table.isUnreachable, Table.has, hg] at hu
  | some o =>
    obtain ⟨o', ho', hs⟩ := s.objects.kept g o hg
    rw [isUnreachable_of_get? hg] at hu
    rw [isUnreachable_of_get? ho'] at hu'
    exact (hs.claimed hu hu').1

/-- Where only flagged objects had the flag `noStrongReference`, and none was late, it is still so. -/
theorem paired (s : t.Struck w (fun _ => False) t') (hp : t.Paired) : t'.Paired := by
  intro h o' ho' hn
  obtain ⟨o, ho, hs⟩ := s.objects.back ho'
  have hu := hp h o ho (hs.fewer hn)
  cases hu' : o'.isUnreachable with
  | true => rfl
  | false =>
    rw [(hs.claimed hu hu').2.resolve_right id] at hn
    cases hn

theorem not_claims_refl : ¬ t.Claims t g := by
  rintro ⟨hu, hu', -⟩
  rw [hu] at hu'
  cases hu'

end Struck

end Table

end TracingHeap
