import Mathlib.Data.List.DropRight
import Interpose.Proofs.Code.StackMap
import Interpose.Proofs.Inference.Compressed
import Interpose.Proofs.Inference.Construction
import Interpose.Proofs.Inference.Facts
/-!
# Wide local variables

A `long` or `double` takes two local variables, and the second of them is `top`. Whatever happens to frames
keeps it so (`Paired`): a store that hits one half of a wide value breaks the other, merging leaves a wide
value alone or drops it where both frames have its second half, refining and constructing change no wide
value and no `top`. So it is of no account for the result whether code is well typed.

A stack map lists the values and no second halves, and leaves out what is `top` at the end. Of paired local
variables nothing is lost by that.

Results:
* `execute_paired`, `arrive_paired`: an instruction and a delivery keep local variables paired.
* `StackMap.trimTop_written`: what a stack map lists expands to the local variables, up to `top` at the end.
* `analyze_paired`: both of all frames of an analysis, and of the table that is written for it.
-/

namespace Interpose

/-- A wide value is followed by its second half. -/
def Paired (ls : List VType) : Prop :=
  ∀ k v, ls[k]? = some v → v.isWide = true → ls[k + 1]? = some .top

theorem VType.Alike.eq_of_wide {v w : VType} (h : v.Alike w) (hw : w.isWide = true) : v = w := by
  rcases h with rfl | ⟨-, hobject⟩
  · rfl
  · cases w <;> cases hw <;> cases hobject

theorem Paired.append {as bs : List VType} (ha : Paired as) (hb : Paired bs) : Paired (as ++ bs) := by
  intro k v hk hv
  rw [List.getElem?_append] at hk
  split at hk
  · have hnext := ha k v hk hv
    rw [List.getElem?_append_left (List.getElem?_eq_some_iff.1 hnext).1, hnext]
  · have hnext := hb _ v hk hv
    rw [List.getElem?_append_right (by omega), ← hnext]
    congr 1
    omega

theorem paired_slots (vs : List VType) : Paired (vs.flatMap VType.slots) := by
  have one (v : VType) : Paired v.slots := by
    intro k u hk hu
    unfold VType.slots at hk ⊢
    split at hk
    · match k with
      | 0 => rw [if_pos ‹_›]; rfl
      | 1 => cases hk; cases hu
    · match k with
      | 0 => cases hk; exact absurd hu ‹_›
  induction vs with
  | nil => exact fun k v hk => by cases hk
  | cons v vs ih => exact (one v).append ih

/-! ## What happens to frames -/

namespace Machine

variable {m m' : Machine} {ls : List VType} {slot : Nat} {v u : VType}

/-- Behind a store no wide value ends where the store begins. -/
theorem storeLocal_before (h : (storeLocal (slot + 1) v ls)[slot]? = some u) : u.isWide = false := by
  have broken : ∀ {base : List VType}, (breakBefore (slot + 1) base)[slot]? = some u → u.isWide = false := by
    intro base hu
    simp only [breakBefore] at hu
    split at hu
    · rw [List.getElem?_set] at hu
      split at hu
      · split at hu
        · cases hu
          rfl
        · cases hu
      · exact absurd rfl ‹_›
    · rename_i hany
      rw [hu] at hany
      simpa using hany
  unfold storeLocal at h
  simp only at h
  split at h
  · rw [List.getElem?_set_ne (by omega), List.getElem?_set_ne (by omega)] at h
    exact broken h
  · rw [List.getElem?_set_ne (by omega)] at h
    exact broken h

theorem storeLocal_paired (h : Paired ls) : Paired (storeLocal slot v ls) := by
  intro k u hk hu
  rcases getElem?_storeLocal hk with rfl | ⟨rfl, rfl⟩ | ⟨hne, hold⟩
  · cases hu
  · have hslots : u.slots = [u, .top] := by simp only [VType.slots, hu, if_true]
    rw [getElem?_storeLocal_self (j := 1) (by simp [hslots]), hslots]
    rfl
  · have hbefore : k + 1 ≠ slot := by
      rintro rfl
      rw [storeLocal_before hk] at hu
      cases hu
    have hlength : v.slots.length ≤ 2 := by
      unfold VType.slots
      split <;> simp
    exact getElem?_storeLocal_of_ne (h k u hold hu) (fun _ => rfl) (by omega)

theorem replaceAll_paired {old new : VType} (htop : old ≠ .top) (hnew : new.isWide = false)
    (h : Paired m.locals) : Paired (m.replaceAll old new).locals := by
  intro k u hk hu
  simp only [replaceAll, List.getElem?_map, Option.map_eq_some_iff] at hk ⊢
  obtain ⟨w, hw, rfl⟩ := hk
  split at hu
  · rw [hnew] at hu
    cases hu
  · exact ⟨.top, h k w hw hu, if_neg htop.symm⟩

theorem construct_paired {owner : String} (h : Paired m.locals) : Paired (m.construct owner v).locals := by
  cases v with
  | uninitializedThis => exact replaceAll_paired nofun rfl h
  | uninitialized site name => exact replaceAll_paired nofun rfl h
  | _ => exact h

theorem store_locals {i : Nat} {op : Opcode} (h : m.store i op slot = .ok m') :
    ∃ v, m'.locals = storeLocal slot v m.locals := by
  rw [store_eq] at h
  obtain ⟨⟨v, k⟩, hp, rfl⟩ := map_eq_ok.1 h
  refine ⟨v, congrArg (storeLocal slot v) ?_⟩
  unfold popStored at hp
  split at hp
  · obtain ⟨⟨vs, k'⟩, hp, he⟩ := map_eq_ok.1 hp
    cases he
    exact (drops_popSlots hp).1.locals
  · split at hp
    · exact (drops_popReference hp).1.locals
    · exact (drops_pop hp).1.locals

theorem pushJava_locals (m : Machine) (t : JavaType) : (m.pushJava t).locals = m.locals := by
  unfold pushJava
  split <;> rfl

end Machine

/-- An instruction keeps local variables paired. -/
theorem execute_paired {pool : Pool} {owner : String} {i : Nat} {insn : Insn} {m m' : Machine}
    (hp : Paired m.locals) (h : execute pool owner i insn m = .ok m') : Paired m'.locals := by
  cases hspares : insn.spares with
  | true =>
    obtain ⟨e, -, hexchanges⟩ := execute_exchanges hspares h
    rwa [hexchanges.locals]
  | false =>
    cases insn with
    | var op slot =>
      have hop : ¬ op ≤ Op.aload := of_decide_eq_false hspares
      simp only [execute, hop, if_false] at h
      obtain ⟨v, hv⟩ := Machine.store_locals h
      rw [hv]
      exact Machine.storeLocal_paired hp
    | method op index =>
      obtain rfl : op = Op.invokespecial := by simpa [Insn.spares] using hspares
      obtain ⟨ref, -, h⟩ := bind_eq_ok.1 h
      obtain ⟨d, -, h⟩ := bind_eq_ok.1 h
      obtain ⟨k, hk, h⟩ := bind_eq_ok.1 h
      rw [if_neg (by decide)] at h
      obtain ⟨⟨v, k'⟩, hk', h⟩ := bind_eq_ok.1 h
      have hlocals : k'.locals = m.locals :=
        (Machine.drops_popReference hk').1.locals.trans (Machine.drops_dropSlots hk).locals
      cases h
      rw [Machine.pushJava_locals]
      split
      · exact Machine.construct_paired (hlocals ▸ hp)
      · exact hlocals ▸ hp
    | _ => cases hspares

theorem mergeLocals_paired {h : Hierarchy} {as bs : List VType} (ha : Paired as) (hb : Paired bs) :
    Paired (Frame.mergeLocals h as bs) := by
  intro k v hk hv
  obtain ⟨a, b, hka, hkb, hmerge⟩ := Frame.getElem?_mergeLocals.1 hk
  cases hslot : mergeSlot h a b with
  | none =>
    rw [hslot] at hmerge
    subst hmerge
    cases hv
  | some c =>
    rw [hslot] at hmerge
    obtain rfl : c = v := hmerge
    -- What is wide was wide on both sides, so both have its second half.
    obtain ⟨hac, hbc⟩ := mergeSlot_alike hslot
    rw [hac.eq_of_wide hv] at hka
    rw [hbc.eq_of_wide hv] at hkb
    refine Frame.getElem?_mergeLocals.2 ⟨.top, .top, ha k c hka hv, hb k c hkb hv, ?_⟩
    rw [mergeSlot_self, Option.getD_some]

theorem refineSlots_paired {ls hints : List VType} (h : Paired ls) : Paired (Frame.refineSlots ls hints) := by
  have halike := Frame.refineSlots_alike ls hints
  intro k v hk hv
  obtain ⟨u, hu, huv⟩ := forall₂_getElem? halike.flip hk
  have hnext := h k u hu (by rwa [VType.Alike.eq_of_wide huv hv])
  obtain ⟨w, hw, htop⟩ := forall₂_getElem? halike hnext
  rw [hw, htop.top]

namespace Analysis

/-- A delivery keeps local variables paired. -/
theorem arrive_paired {m : Method} {t : Nat} {e : Option Frame} {g k : Frame} (hg : Paired g.locals)
    (he : ∀ f, e = some f → Paired f.locals) (hk : m.arrive t e g = .ok k) : Paired k.locals := by
  obtain ⟨merged, hnone, hsome, hk⟩ := Method.arrive_cases hk
  have hmerged : Paired merged.locals := by
    cases e with
    | none => exact hnone rfl ▸ hg
    | some f =>
      rw [(Frame.merge_eq_ok.1 (hsome f rfl)).2]
      exact mergeLocals_paired (he f rfl) hg
  rcases hk with rfl | ⟨hint, rfl⟩
  · exact hmerged
  · exact refineSlots_paired hmerged

theorem deliveries_paired {m : Method} {i : Nat} {insn : Insn} {f : Frame} {ds : List (Nat × Frame)}
    {after : Machine} (hf : Paired f.locals) (h : m.deliveries i insn f = .ok (ds, after)) :
    ∀ t ∈ ds, Paired t.2.locals := by
  obtain ⟨hexecute, jumps, next, hjumps, hnext, rfl⟩ := Method.deliveries_eq_ok.1 h
  have hafter : Paired after.locals := execute_paired (m := { f with peak := 0 }) hf hexecute
  intro t ht
  rcases List.mem_append.1 ht with ht | ht
  · rcases List.mem_append.1 ht with ht | ht
    · obtain ⟨-, g, -, -, rfl⟩ := Method.mem_toHandlers.1 ht
      exact hf
    · obtain ⟨l, -, -, heq⟩ := (mem_forall₂ hjumps.flip).1 t ht
      rwa [heq]
  · rcases hnext with ⟨-, rfl⟩ | ⟨-, -, rfl⟩
    · cases ht
    · obtain rfl := List.mem_singleton.1 ht
      exact hafter

/-- All frames of an analysis have paired local variables. -/
theorem analyze_locals_paired {b : Body} {context : MethodContext} {pool : Pool} {h : Hierarchy}
    {a : Analysis} (ha : analyze b context pool h = .ok a) {i : Nat} {f : Frame}
    (hf : a.frame i = some f) : Paired f.locals := by
  obtain ⟨m, -, hm, -⟩ := analyze_eq_ok ha
  obtain ⟨-, p, limit, hrun, hframe⟩ := run_of_analyze hm ha
  have keeps : m.Keeps (fun _ f => Paired f.locals) (fun _ f => Paired f.locals) :=
    ⟨fun hf _ hds => deliveries_paired hf hds, arrive_paired⟩
  have initial : Paired (initialFrame m.context).locals := by
    rw [initialFrame_eq]
    exact paired_slots _
  rw [hframe] at hf
  exact Progress.run_kept keeps (Progress.start_all initial) hrun i f hf

end Analysis

/-! ## What a stack map lists -/

namespace StackMap

variable {ls : List VType}

/-- Values are read off their slots. -/
theorem values_slots (vs : List VType) : values (vs.flatMap VType.slots) = vs := by
  induction vs with
  | nil => rfl
  | cons v vs ih =>
    rw [List.flatMap_cons, VType.slots]
    cases hv : v.isWide with
    | true => simp only [if_true, List.cons_append, List.nil_append, values, hv, ih]
    | false =>
      rw [if_neg Bool.false_ne_true, List.singleton_append]
      cases hrest : vs.flatMap VType.slots with
      | nil =>
        rw [hrest] at ih
        rw [← ih, values, values]
      | cons second rest =>
        rw [hrest] at ih
        rw [values, hv, if_neg Bool.false_ne_true, ih]

/-- Each wide value is followed by its second half, but for a last one that lost it at the end. -/
def NearlyPaired (ls : List VType) : Prop :=
  ∀ k v, ls[k]? = some v → v.isWide = true → k + 1 < ls.length → ls[k + 1]? = some .top

theorem NearlyPaired.tail {v : VType} (h : NearlyPaired (v :: ls)) : NearlyPaired ls :=
  fun k u hk hu hlt => h (k + 1) u hk hu (Nat.succ_lt_succ hlt)

/-- Such slots are those of their values, but for the second half that is missing. -/
theorem slots_values (h : NearlyPaired ls) :
    (values ls).flatMap VType.slots = ls ∨ (values ls).flatMap VType.slots = ls ++ [.top] := by
  fun_induction values ls with
  | case1 => exact .inl rfl
  | case2 v =>
    rw [List.flatMap_singleton, VType.slots]
    split
    · exact .inr rfl
    · exact .inl rfl
  | case3 v second rest hv ih =>
    obtain rfl : second = .top := by simpa using h 0 v rfl hv (by simp)
    rw [List.flatMap_cons, VType.slots, if_pos hv]
    exact (ih h.tail.tail).imp (congrArg (v :: .top :: ·)) (congrArg (v :: .top :: ·))
  | case4 v second rest hv ih =>
    rw [List.flatMap_cons, VType.slots, if_neg hv]
    exact (ih h.tail).imp (congrArg (v :: ·)) (congrArg (v :: ·))

/-- A last slot that is not `top` is no second half. -/
theorem getLast?_values (h : NearlyPaired ls) (hlast : ls.getLast? ≠ some .top) :
    (values ls).getLast? = ls.getLast? := by
  fun_induction values ls with
  | case1 => rfl
  | case2 => rfl
  | case3 v second rest hv ih =>
    obtain rfl : second = .top := by simpa using h 0 v rfl hv (by simp)
    cases rest with
    | nil => exact absurd rfl hlast
    | cons u rest =>
      rw [List.getLast?_cons_cons, List.getLast?_cons_cons] at hlast ⊢
      rw [List.getLast?_cons, ih h.tail.tail hlast, List.getLast?_cons]
      rfl
  | case4 v second rest hv ih =>
    rw [List.getLast?_cons_cons] at hlast ⊢
    rw [List.getLast?_cons, ih h.tail hlast, List.getLast?_cons]
    rfl

theorem trimTop_eq (ls : List VType) : trimTop ls = ls.rdropWhile (· == .top) :=
  rfl

theorem getLast?_trimTop (ls : List VType) : (trimTop ls).getLast? ≠ some .top := by
  intro hlast
  have hne : trimTop ls ≠ [] := by
    intro hnil
    rw [hnil] at hlast
    cases hlast
  rw [List.getLast?_eq_some_getLast hne] at hlast
  exact List.rdropWhile_last_not _ ls hne (beq_iff_eq.2 (Option.some.inj hlast))

theorem nearlyPaired_trimTop (h : Paired ls) : NearlyPaired (trimTop ls) := by
  have hprefix : trimTop ls <+: ls := trimTop_eq ls ▸ List.rdropWhile_prefix _ _
  have hsame {k : Nat} (hk : k < (trimTop ls).length) : ls[k]? = (trimTop ls)[k]? := by
    rw [List.getElem?_eq_getElem hk, hprefix.getElem hk]
    exact List.getElem?_eq_getElem (hk.trans_le hprefix.length_le)
  intro k v hk hv hlt
  rw [← hsame hlt]
  exact h k v ((hsame (by omega)).trans hk) hv

/-- What a stack map lists for local variables expands to them, up to what is open at the end. -/
theorem trimTop_written {f : Frame} (h : Paired f.locals) : trimTop f.written.locals = trimTop f.locals := by
  have hagain : trimTop (trimTop f.locals) = trimTop f.locals := by
    rw [trimTop_eq, trimTop_eq]
    exact List.rdropWhile_idempotent _ _
  rw [Frame.written]
  rcases slots_values (nearlyPaired_trimTop h) with hexpand | hexpand
  · rw [hexpand, hagain]
  · rw [hexpand, trimTop_eq, List.rdropWhile_concat_pos _ _ _ rfl, ← trimTop_eq, hagain]

end StackMap

namespace Analysis

open StackMap

/-- The local variables of all frames are paired, for whatever code, and so nothing of them is lost in the
table that is written for the analysis: what it lists for a frame does not end in `top`, has one type for
each value and expands to the local variables of the frame, up to `top` at the end. -/
theorem analyze_paired {b : Body} {context : MethodContext} {pool : Pool} {h : Hierarchy} {a : Analysis}
    (ha : analyze b context pool h = .ok a) :
    (∀ i f, a.frame i = some f → Paired f.locals ∧ trimTop f.written.locals = trimTop f.locals) ∧
    ∀ (pool' : Pool) (e : Encoded) (p q : Pool) (frames : List StackMapFrame), encode b pool' = .ok e →
      p.Sound → (table a e).run.run p = (.ok frames, q) →
      ∀ x ∈ framesWithOffsets frames, ∃ i f delta locals stack vs, e.offsets[i]? = some x.1 ∧
        a.frame i = some f ∧ x.2 = .full delta locals stack ∧
        List.Forall₂ (VerificationType.Denotes q e.offsets) locals vs ∧ vs.getLast? ≠ some .top ∧
        trimTop (vs.flatMap VType.slots) = trimTop f.locals := by
  have hall (i : Nat) (f : Frame) (hf : a.frame i = some f) :
      Paired f.locals ∧ trimTop f.written.locals = trimTop f.locals :=
    ⟨analyze_locals_paired ha hf, trimTop_written (analyze_locals_paired ha hf)⟩
  refine ⟨hall, fun pool' e p q frames he hp hrun x hx => ?_⟩
  obtain ⟨m, -, hm, -⟩ := analyze_eq_ok ha
  have hends := table_ends (encode_fits he) (fun _ _ hf => analyze_sited hm ha hf) hp
  obtain ⟨i, f, ho, hf, delta, locals, stack, vs, ss, hfull, hlocals, -, hwritten⟩ :=
    (hends.of_ok hrun).2.of_mem hx
  obtain ⟨hpaired, hexpanded⟩ := hall i f hf
  have hslots : f.written.locals = vs.flatMap VType.slots := congrArg Frame.locals hwritten
  have hvalues : values (trimTop f.locals) = vs := by
    rw [← values_slots vs, ← hslots, Frame.written, values_slots]
  refine ⟨i, f, delta, locals, stack, vs, ho, hf, hfull, hlocals, ?_, ?_⟩
  · rw [← hvalues, getLast?_values (nearlyPaired_trimTop hpaired) (getLast?_trimTop _)]
    exact getLast?_trimTop _
  · rw [← hslots, hexpanded]

/-- A loop behind stores of two `long`s and of an `int` into the second half of the first. -/
def brokenHalf : Body :=
  .ofInsns [.simple Op.lconst0, .var Op.lstore 0, .simple Op.lconst0, .var Op.lstore 2, .simple Op.iconst0,
    .var Op.istore 1, .label 0, .jump Op.goto 0]

theorem analyze_paired_brokenHalf :
    ∃ a e frames q, analyze brokenHalf ⟨"A", Access.staticFlag, "f", ⟨[], .void⟩⟩ .empty .flat = .ok a ∧
      a.frame 6 = some ⟨[.top, .int, .long, .top], []⟩ ∧ Paired [.top, .int, .long, .top] ∧
      encode brokenHalf .empty = .ok e ∧ Pool.empty.Sound ∧ (table a e).run.run .empty = (.ok frames, q) ∧
      framesWithOffsets frames = [(6, .full 6 [.top, .integer, .long] [])] ∧
      ∃ i f vs, e.offsets[i]? = some 6 ∧ a.frame i = some f ∧
        List.Forall₂ (VerificationType.Denotes q e.offsets) [.top, .integer, .long] vs ∧
        vs.getLast? ≠ some .top ∧ trimTop (vs.flatMap VType.slots) = trimTop f.locals := by
  have hok : (analyze brokenHalf ⟨"A", Access.staticFlag, "f", ⟨[], .void⟩⟩ .empty .flat).toOption.any
      (fun a => decide (a.frame 6 = some ⟨[.top, .int, .long, .top], []⟩) &&
        (encode brokenHalf .empty).toOption.any fun e =>
          ((table a e).run.run .empty).1.toOption.any fun frames =>
            framesWithOffsets frames = [(6, .full 6 [.top, .integer, .long] [])]) := by decide +kernel
  obtain ⟨a, ha, hchecks⟩ := any_toOption.1 hok
  simp only [Bool.and_eq_true, decide_eq_true_eq, any_toOption] at hchecks
  obtain ⟨hframe, e, he, frames, hframes, hoffsets⟩ := hchecks
  have hrun : (table a e).run.run .empty = (.ok frames, ((table a e).run.run .empty).2) :=
    Prod.ext hframes rfl
  obtain ⟨hpaired, htable⟩ := analyze_paired ha
  refine ⟨a, e, frames, _, ha, hframe, (hpaired 6 _ hframe).1, he, Pool.empty_sound, hrun, hoffsets, ?_⟩
  obtain ⟨i, f, delta, locals, stack, vs, ho, hf, hfull, h⟩ :=
    htable .empty e .empty _ frames he Pool.empty_sound hrun _ (hoffsets ▸ List.mem_singleton_self _)
  cases hfull
  exact ⟨i, f, vs, ho, hf, h⟩

end Analysis

end Interpose
