import TracingHeap.Proofs.Trace.Reach
import TracingHeap.Proofs.Mark.Rounds
import TracingHeap.Proofs.Collection.Scheduled

namespace TracingHeap

/-- An entry of a list, and what the list is when the entry is replaced. -/
theorem split_of_getElem? {α : Type} {l : List α} {i : Nat} {a : α} (h : l[i]? = some a) :
    ∃ before after, l = before ++ a :: after ∧ ∀ b, l.set i b = before ++ b :: after := by
  obtain ⟨hi, ha⟩ := List.getElem?_eq_some_iff.mp h
  refine ⟨l.take i, l.drop (i + 1), ?_, fun b => List.set_eq_take_append_cons_drop .. ▸ if_pos hi⟩
  rw [← ha, List.getElem_cons_drop, List.take_append_drop]

theorem exists_mem_split {α : Type} {before after : List α} {a : α} {P : α → Prop} :
    (∃ b ∈ before ++ a :: after, P b) ↔ P a ∨ ∃ b ∈ before ++ after, P b := by
  simp only [List.mem_append, List.mem_cons, or_and_right, exists_or, exists_eq_left]
  exact or_left_comm

namespace Tracer

variable {tr : Tracer} {good : Handle → Prop} {kept : Site → Prop} {w : Scope}
  {wave : List Handle} {t₀ t t' : Table} {outputs outputs' : List TaskOutput}
  {walks front : Handle → Prop}

abbrev Amid (tr : Tracer) (good : Handle → Prop) (kept : Site → Prop) (wave : List Handle)
    (t : Table) (outputs : List TaskOutput) : Prop :=
  Tracing tr.schema tr.clusters tr.memberKeepsCluster good
    (fun h => h ∈ wave ∨ ∃ o ∈ outputs, h ∈ o.reached)
    (fun x => kept x ∨ ∃ o ∈ outputs, x ∈ o.weak) t

structure Taken (tr : Tracer) (good : Handle → Prop) (kept : Site → Prop) (w : Scope)
    (done left : List Handle) (t : Table) (outputs : List TaskOutput) (t' : Table)
    (outputs' : List TaskOutput) : Prop where
  tracing : Amid tr good kept left t' outputs'
  advances : t.Advances tr.schema t'
  marked : ∀ h ∈ done, t'.Marked h
  struck : t.Struck w (fun _ => False) t'
  reached : ∃ new, (outputs'.flatMap (·.reached.toList)).Perm
    (outputs.flatMap (·.reached.toList) ++ new) ∧ new.Nodup ∧ ∀ g, g ∈ new ↔ t.Claims t' g
  weak : ∀ x, (∃ o ∈ outputs', x ∈ o.weak) → (∃ o ∈ outputs, x ∈ o.weak) ∨ w.soft x
  scanned : (outputs'.map (·.scanned)).sum = (outputs.map (·.scanned)).sum + done.length

namespace Taken

variable {done done' left left' : List Handle} {t'' : Table} {outputs'' : List TaskOutput}

theorem refl (p : Amid tr good kept left t outputs) :
    Taken tr good kept w [] left t outputs t outputs := by
  refine ⟨p, .refl t, by simp, .refl t, ⟨[], by simp, .nil, fun g => ?_⟩, fun _ => .inl, rfl⟩
  simp [Table.Struck.not_claims_refl]

theorem trans (a : Taken tr good kept w done left t outputs t' outputs')
    (b : Taken tr good kept w done' left' t' outputs' t'' outputs'') :
    Taken tr good kept w (done ++ done') left' t outputs t'' outputs'' := by
  refine ⟨b.tracing, a.advances.trans b.advances, fun h hh => ?_, a.struck.trans b.struck, ?_,
    fun x hx => ?_, ?_⟩
  · rcases List.mem_append.mp hh with hh | hh
    · exact b.advances.marked (a.marked h hh)
    · exact b.marked h hh
  · obtain ⟨first, hfirst, hnodup, hmem⟩ := a.reached
    obtain ⟨second, hsecond, hnodup', hmem'⟩ := b.reached
    refine ⟨first ++ second, ?_, ?_, fun g => ?_⟩
    · rw [← List.append_assoc]
      exact hsecond.trans (hfirst.append_right second)
    · refine List.nodup_append.mpr ⟨hnodup, hnodup', ?_⟩
      rintro g hg _ hg' rfl
      have hawake := ((hmem g).mp hg).2.1
      rw [((hmem' g).mp hg').1] at hawake
      cases hawake
    · rw [List.mem_append, hmem, hmem', a.struck.claims_trans b.struck]
  · rcases b.weak x hx with hx | hx
    · exact a.weak x hx
    · exact .inr hx
  · rw [b.scanned, a.scanned, List.length_append, Nat.add_assoc]

/-- Looking at one object of a wave. -/
theorem process {i : Nat} {h : Handle} {pool : ScratchPool} {output : TaskOutput} {m : Marking}
    (p : Amid tr good kept (h :: left) t outputs) (hget : outputs[i]? = some output)
    (hok : tr.process ⟨t, pool, output⟩ h = .ok m) (hadm : tr.Admits w t)
    (hlic : tr.Licenses w t h) :
    Taken tr good kept w [h] left t outputs m.table (outputs.set i m.output) := by
  obtain ⟨before, after, hsplit, hset⟩ := split_of_getElem? hget
  have hpass : Pass tr good
      (fun x => x = h ∨ x ∈ left ∨ ∃ o ∈ before ++ after, x ∈ o.reached)
      (fun x => kept x ∨ ∃ o ∈ before ++ after, x ∈ o.weak) ⟨t, pool, output⟩ := by
    refine (Tracing.remember p fun x hx => ?_).congr fun x => ?_
    · rw [hsplit, exists_mem_split] at hx
      exact hx.elim (.inl ∘ .inl) (Or.elim · .inr (.inl ∘ .inr))
    · rw [hsplit, exists_mem_split, List.mem_cons, or_assoc, or_assoc, or_assoc]
      exact or_congr Iff.rfl (or_congr Iff.rfl or_comm)
  obtain ⟨hnext, hgrows, hmarked⟩ := (process_spec hpass).ok hok
  have hstrikes := (process_strikes (fun _ => False) p.orderly.tidy hadm hlic).ok hok
  rw [hset, hsplit]
  refine ⟨?_, hgrows.table, fun x hx => ?_, hstrikes.table, ?_, fun x hx => ?_, ?_⟩
  · refine (Tracing.remember hnext fun x hx => ?_).congr fun x => ?_
    · rw [exists_mem_split]
      exact hx.elim (Or.elim · .inl (.inr ∘ .inr)) (.inr ∘ .inl)
    · rw [exists_mem_split, or_assoc]
      exact or_congr Iff.rfl or_comm
  · rw [List.mem_singleton.mp hx]
    exact hmarked
  · obtain ⟨new, hnew, hnodup, hmem⟩ := hstrikes.reached
    refine ⟨new, ?_, hnodup, hmem⟩
    simp only [List.flatMap_append, List.flatMap_cons]
    have hsame : m.output.reached.toList = output.reached.toList ++ new := hnew
    rw [hsame, List.append_assoc, List.append_assoc, List.append_assoc]
    exact (List.perm_append_comm.append_left _).append_left _
  · rw [exists_mem_split] at hx ⊢
    rcases hx with hx | hx
    · rcases hstrikes.weak x hx with hx | hx
      · exact .inl (.inl hx)
      · exact .inr hx
    · exact .inl (.inr hx)
  · have hcount : m.output.scanned = output.scanned + 1 := hstrikes.scanned
    simp [hcount]
    omega

end Taken

/-- A run of a wave, within the bounds set at an earlier table. The induction is on the objects that
are looked at. -/
theorem Takes.taken (run : tr.Takes wave t outputs t' outputs')
    {gray₀ : Handle → Prop} {weak₀ : Site → Prop}
    (p₀ : Tracing tr.schema tr.clusters tr.memberKeepsCluster good gray₀ weak₀ t₀)
    (hfront : ∀ h, front h → t₀.isPermanent h = false) (a : t₀.Advances tr.schema t)
    (s : t₀.Struck (tr.scope t₀ walks front) (fun _ => False) t)
    (hwave : ∀ h ∈ wave, Hits tr t₀ walks front h ∧ walks h)
    (p : Amid tr good kept wave t outputs) :
    Taken tr good kept (tr.scope t₀ walks front) wave [] t outputs t' outputs' := by
  induction run with
  | done => exact .refl p
  | @next wave rest h _ t _ _ _ outputs _ m order task process _ ih =>
    have hmem : ∀ x, x ∈ wave ↔ x = h ∨ x ∈ rest := fun x => by
      rw [order.mem_iff, List.mem_cons]
    have p' : Amid tr good kept (h :: rest) t outputs :=
      Tracing.congr p fun x => by rw [hmem, List.mem_cons]
    obtain ⟨hhit, hwalks⟩ := hwave h ((hmem h).mpr (.inl rfl))
    have hadm : tr.Admits (tr.scope t₀ walks front) t := (scope_admits p₀ hfront).struck s
    have hstep := Taken.process p' task process hadm (scope_licenses p₀ a hhit hwalks)
    have hrest := ih (a.trans hstep.advances) (s.trans hstep.struck)
      (fun x hx => hwave x ((hmem x).mpr (.inr hx))) hstep.tracing
    have hboth := hstep.trans hrest
    exact ⟨hboth.tracing, hboth.advances, fun x hx => hboth.marked x (order.mem_iff.mp hx),
      hboth.struck, hboth.reached, hboth.weak, by rw [hboth.scanned, order.length_eq]; rfl⟩

structure Waved (tr : Tracer) (good : Handle → Prop) (w : Scope) (wave : List Handle) (t : Table)
    (tally : Tally) (wave' : List Handle) (t' : Table) (tally' : Tally) : Prop where
  tracing : Tracing tr.schema tr.clusters tr.memberKeepsCluster good (· ∈ wave') (· ∈ tally'.weak) t'
  advances : t.Advances tr.schema t'
  marked : ∀ h ∈ wave, t'.Marked h
  struck : t.Struck w (fun _ => False) t'
  distinct : wave'.Nodup
  next : ∀ g, g ∈ wave' ↔ t.Claims t' g
  weak : ∀ x ∈ tally'.weak, x ∈ tally.weak ∨ w.soft x
  scanned : tally'.scanned = tally.scanned + wave.length
  waves : tally'.waves = tally.waves + 1

theorem foldl_add_scanned (outputs : List TaskOutput) : ∀ tally : Tally,
    (outputs.foldl Tally.add tally).scanned = tally.scanned + (outputs.map (·.scanned)).sum ∧
      (outputs.foldl Tally.add tally).waves = tally.waves := by
  induction outputs with
  | nil => exact fun tally => ⟨rfl, rfl⟩
  | cons o rest ih =>
    intro tally
    obtain ⟨hscanned, hwaves⟩ := ih (tally.add o)
    refine ⟨?_, hwaves⟩
    rw [List.foldl_cons, hscanned, List.map_cons, List.sum_cons, Tally.add, Nat.add_assoc]

/-- A run of a wave from fresh outputs. -/
theorem Takes.waved {n : Nat} {tally : Tally} {wave' : List Handle}
    (run : tr.Takes wave t (List.replicate n .empty) t' outputs)
    (order : wave'.Perm (outputs.flatMap (·.reached.toList)))
    {gray₀ : Handle → Prop} {weak₀ : Site → Prop}
    (p₀ : Tracing tr.schema tr.clusters tr.memberKeepsCluster good gray₀ weak₀ t₀)
    (hfront : ∀ h, front h → t₀.isPermanent h = false) (a : t₀.Advances tr.schema t)
    (s : t₀.Struck (tr.scope t₀ walks front) (fun _ => False) t)
    (hwave : ∀ h ∈ wave, Hits tr t₀ walks front h ∧ walks h)
    (p : Tracing tr.schema tr.clusters tr.memberKeepsCluster good (· ∈ wave) (· ∈ tally.weak) t) :
    Waved tr good (tr.scope t₀ walks front) wave t tally wave' t'
      (outputs.foldl Tally.add { tally with waves := tally.waves + 1 }) := by
  have hfresh : ∀ {P : TaskOutput → Prop}, ¬ P .empty →
      ¬ ∃ o ∈ List.replicate n TaskOutput.empty, P o := by
    rintro P hP ⟨o, ho, hPo⟩
    rw [List.eq_of_mem_replicate ho] at hPo
    exact hP hPo
  have hmet : ∀ x, x ∈ (outputs.foldl Tally.add { tally with waves := tally.waves + 1 }).weak ↔
      x ∈ tally.weak ∨ ∃ o ∈ outputs, x ∈ o.weak := fun x => mem_weak_foldl_add
  have hstart : Amid tr good (· ∈ tally.weak) wave t (List.replicate n .empty) := by
    refine (p.congr fun x => ?_).remember fun x hx => .inl hx
    rw [or_iff_left (hfresh (Array.not_mem_empty x))]
  have htaken := run.taken p₀ hfront a s hwave hstart
  obtain ⟨new, hnew, hdistinct, hclaims⟩ := htaken.reached
  rw [flatMap_replicate_empty, List.nil_append] at hnew
  obtain ⟨hscanned, hwaves⟩ := foldl_add_scanned outputs { tally with waves := tally.waves + 1 }
  refine ⟨?_, htaken.advances, htaken.marked, htaken.struck,
    (order.trans hnew).nodup_iff.mpr hdistinct, fun g => ?_, fun x hx => ?_, ?_, hwaves⟩
  · refine (htaken.tracing.congr fun x => ?_).remember fun x hx => (hmet x).mpr hx
    rw [order.mem_iff, List.mem_flatMap, or_iff_right List.not_mem_nil]
    simp only [Array.mem_toList_iff]
  · rw [(order.trans hnew).mem_iff, hclaims]
  · rcases (hmet x).mp hx with hx | hx
    · exact .inl hx
    · exact .inr ((htaken.weak x hx).resolve_left (hfresh (Array.not_mem_empty x)))
  · have hnone : ((List.replicate n TaskOutput.empty).map (·.scanned)).sum = 0 := by
      simp [TaskOutput.empty]
    rw [hscanned, htaken.scanned, hnone, Nat.zero_add]

structure Flooded (tr : Tracer) (good : Handle → Prop) (w : Scope) (wave : List Handle) (t : Table)
    (tally : Tally) (t' : Table) (tally' : Tally) : Prop where
  tracing : Tracing tr.schema tr.clusters tr.memberKeepsCluster good (fun _ => False)
    (· ∈ tally'.weak) t'
  advances : t.Advances tr.schema t'
  marked : ∀ h ∈ wave, t'.Marked h
  struck : t.Struck w (fun _ => False) t'
  weak : ∀ x ∈ tally'.weak, x ∈ tally.weak ∨ w.soft x

/-- Every wave of a trace keeps to the bounds set at an earlier table, if all references are followed.
The induction is on the waves. -/
theorem Floods.flooded {tally tally' : Tally} (run : tr.Floods wave t tally t' tally')
    {gray₀ : Handle → Prop} {weak₀ : Site → Prop}
    (p₀ : Tracing tr.schema tr.clusters tr.memberKeepsCluster good gray₀ weak₀ t₀)
    (hfront : ∀ h, front h → t₀.isPermanent h = false) (a : t₀.Advances tr.schema t)
    (s : t₀.Struck (tr.scope t₀ (fun _ => True) front) (fun _ => False) t)
    (hwave : ∀ h ∈ wave, Hits tr t₀ (fun _ => True) front h)
    (p : Tracing tr.schema tr.clusters tr.memberKeepsCluster good (· ∈ wave) (· ∈ tally.weak) t) :
    Flooded tr good (tr.scope t₀ (fun _ => True) front) wave t tally t' tally' := by
  induction run with
  | done => exact ⟨p.congr fun x => by simp, .refl _, by simp, .refl _, fun _ => .inl⟩
  | next _ takes order _ ih =>
    have hfirst := takes.waved order p₀ hfront a s (fun h hh => ⟨hwave h hh, trivial⟩) p
    have hrest := ih (a.trans hfirst.advances) (s.trans hfirst.struck)
      (fun h hh => hfirst.struck.hit_of_claims ((hfirst.next h).mp hh)) hfirst.tracing
    refine ⟨hrest.tracing, hfirst.advances.trans hrest.advances,
      fun h hh => hrest.advances.marked (hfirst.marked h hh), hfirst.struck.trans hrest.struck,
      fun x hx => ?_⟩
    rcases hrest.weak x hx with hx | hx
    · exact hfirst.weak x hx
    · exact .inr hx

end Tracer

end TracingHeap
