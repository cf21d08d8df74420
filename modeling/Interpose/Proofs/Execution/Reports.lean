import Interpose.Proofs.Execution.Neutral
import Interpose.Proofs.Execution.Stage
/-!
# Running reports

On a neutral platform every report takes its operands and leaves everything else as it was. The report
of the start stores the arguments again as they were.
-/

namespace Interpose

namespace Stage

open Platform

variable {P : Platform} {own : Operation → Prop} (N : P.Neutral own) {σ : Stage} {w w' : P.World}
  {ρ : P.Object → P.Object → Prop} {xs : List (P.Object × Aside P.Object)}
  {τ : List (Word P.Object)} {ν : Nat → Word P.Object}

/-- A verdict to go on is taken off the stack. -/
theorem verdictCheck_does (hb : N.Beside w w' ρ xs) {r : P.Object} (hr : (r, .verdict) ∈ xs)
    (t : JavaType) {l : Nat} (hl : σ.bound ≤ l) : ∃ w1,
    Does P σ (Block.verdictCheck t l (l + 1)) ⟨w', .object r :: τ, ν⟩ ⟨w1, τ, ν⟩ ∧
      N.Beside w w1 ρ xs := by
  obtain ⟨w1, hget, hb1⟩ := N.state (.object r :: τ) hb hr
  refine ⟨w1, fun k hk hskip => ?_, hb1⟩
  have front := hk.append_left.append_left
  have back := hk.append_right
  generalize hA : ([Template.op Op.dup, .field Op.getfield Spy.stateField, .op Op.dup,
    .pushInt Spy.stateReturn, .jump Op.ifIcmpne l, .op Op.pop,
    .field Op.getfield Spy.valueField] ++ t.unboxing : List Template).length = n at back
  have hn : 7 ≤ n := by
    rw [← hA, List.length_append]
    exact Nat.le_add_right _ _
  have hlen : (Block.verdictCheck t l (l + 1)).length = n + 9 := by
    rw [← hA]
    simp only [Block.verdictCheck, List.length_append, List.length_cons, List.length_nil]
  rw [hlen] at hskip ⊢
  have hskip' : ∀ j, j < 9 → σ.skips (k + n + j) := fun j hj => by
    rw [Nat.add_assoc]
    exact hskip _ (by omega)
  refine passes_next (front 0 _ rfl) (hskip 0 (by omega)) (goesOn_plain (i := .simple Op.dup) rfl rfl) ?_
  refine passes_next (front 1 _ rfl) (hskip 1 (by omega)) (goesOn_field rfl hget) ?_
  refine passes_next (front 2 _ rfl) (hskip 2 (by omega)) (goesOn_plain (i := .simple Op.dup) rfl rfl) ?_
  refine passes_next (front 3 _ rfl) (hskip 3 (by omega)) (goesOn_pushInt _) ?_
  refine passes_jump (front 4 _ rfl) (hskip 4 (by omega)) (jumpsTo_plain (i := .jump Op.ifIcmpne l) rfl)
    hl (back 1 _ rfl) ?_
  refine passes_next (back 1 _ rfl) (hskip' 1 (by omega)) (goesOn_place l) ?_
  refine passes_next (back 2 _ rfl) (hskip' 2 (by omega)) (goesOn_pushInt _) ?_
  refine passes_jump (back 3 _ rfl) (hskip' 3 (by omega))
    (jumpsTo_plain (i := .jump Op.ifIcmpne (l + 1)) rfl) (Nat.le_succ_of_le hl) (back 7 _ rfl) ?_
  refine passes_next (back 7 _ rfl) (hskip' 7 (by omega)) (goesOn_place (l + 1)) ?_
  exact passes_next (back 8 _ rfl) (hskip' 8 (by omega)) (goesOn_plain (i := .simple Op.pop) rfl rfl) .refl

/-- A report takes its operands off the stack. -/
theorem report_does (s : WeaveSite) (k : EventKind) (hb : N.Beside w w' ρ xs)
    (operands : List (Word P.Object)) (hn : operands.length + 2 = (Spy.parameterTypes k).length)
    {l : Nat} (hl : σ.bound ≤ l) : ∃ w1,
    Does P σ (s.report k l) ⟨w', operands ++ τ, ν⟩ ⟨w1, τ, ν⟩ ∧ N.Beside w w1 ρ [] := by
  obtain ⟨w1, space, htext, hb1⟩ := N.text s.plan.space (operands ++ τ) hb
  obtain ⟨w2, r, hreport, hb2⟩ :=
    N.report k (.int s.plan.listener :: .object space :: operands) τ hb1 (by simpa using hn)
  obtain ⟨w3, hcheck, hb3⟩ := verdictCheck_does N (σ := σ) (ν := ν) (τ := τ) hb2
    (List.mem_cons_self ..) s.returnType hl
  refine ⟨w3, Does.append ?_ hcheck, N.forget hb3⟩
  exact .cons (goesOn_pushString htext) (.cons (goesOn_pushInt _) (.one (goesOn_method rfl hreport)))

theorem opening_does (s : P.Store) : Does P σ Marker.opening s s :=
  .cons (goesOn_plain (i := .simple Op.iconst2) rfl rfl) (.one (goesOn_plain (i := .simple Op.pop) rfl rfl))

theorem closing_does (s : P.Store) : Does P σ Marker.closing s s :=
  .cons (goesOn_plain (i := .simple Op.iconst3) rfl rfl) (.one (goesOn_plain (i := .simple Op.pop) rfl rfl))

theorem around_does {ts : List Template} {s t : P.Store} (h : Does P σ ts s t) :
    Does P σ (Marker.around ts) s t :=
  (opening_does s).append (h.append (closing_does t))

theorem lineReport_does (s : WeaveSite) (hb : N.Beside w w' ρ xs) (n : UInt16) {l : Nat}
    (hl : σ.bound ≤ l) : ∃ w1,
    Does P σ (s.lineReport n l) ⟨w', τ, ν⟩ ⟨w1, τ, ν⟩ ∧ N.Beside w w1 ρ [] := by
  obtain ⟨w1, hreport, hb1⟩ := report_does N (σ := σ) (τ := τ) (ν := ν) s .line hb
    [.int (Int32.ofNat n.toNat)] rfl hl
  exact ⟨w1, around_does (.cons (goesOn_pushInt _) hreport), hb1⟩

theorem callBeforeReport_does (s : WeaveSite) (hb : N.Beside w w' ρ xs) (line : Int32)
    (m : MemberRef) {l : Nat} (hl : σ.bound ≤ l) : ∃ w1,
    Does P σ (s.callBeforeReport line m l) ⟨w', τ, ν⟩ ⟨w1, τ, ν⟩ ∧ N.Beside w w1 ρ [] := by
  obtain ⟨w1, owner, h1, hb1⟩ := N.text (toJavaName m.owner) (.int line :: τ) hb
  obtain ⟨w2, name, h2, hb2⟩ := N.text m.name (.object owner :: .int line :: τ) hb1
  obtain ⟨w3, descriptor, h3, hb3⟩ :=
    N.text m.descriptor (.object name :: .object owner :: .int line :: τ) hb2
  obtain ⟨w4, hreport, hb4⟩ := report_does N (σ := σ) (τ := τ) (ν := ν) s .callBefore hb3
    [.object descriptor, .object name, .object owner, .int line] rfl hl
  refine ⟨w4, around_does (Does.append ?_ hreport), hb4⟩
  exact .cons (goesOn_pushInt _) (.cons (goesOn_pushString h1) (.cons (goesOn_pushString h2)
    (.one (goesOn_pushString h3))))

theorem callReturnReport_does (s : WeaveSite) (hb : N.Beside w w' ρ []) {l : Nat}
    (hl : σ.bound ≤ l) : ∃ w1,
    Does P σ (s.callReturnReport l) ⟨w', τ, ν⟩ ⟨w1, τ, ν⟩ ∧ N.Beside w w1 ρ [] := by
  unfold WeaveSite.callReturnReport
  split
  · obtain ⟨w1, hreport, hb1⟩ := report_does N (σ := σ) (τ := τ) (ν := ν) s .callReturn hb
      [] rfl hl
    exact ⟨w1, around_does hreport, hb1⟩
  · exact ⟨w', .nil, hb⟩

/-- The report of an exception leaves the exception on the stack. -/
theorem callThrowsReport_does (s : WeaveSite) (hb : N.Beside w w' ρ xs) {o o' : P.Object}
    (ho : ρ o o') {l : Nat} (hl : σ.bound ≤ l) : ∃ w1,
    Does P σ (s.callThrowsReport l) ⟨w', .object o' :: τ, ν⟩ ⟨w1, .object o' :: τ, ν⟩ ∧
      N.Beside w w1 ρ [] := by
  obtain ⟨w1, c, hclass, hb1⟩ := N.getClass (.object o' :: τ) hb ho
  obtain ⟨w2, n, hname, hb2⟩ := N.getName (.object o' :: τ) hb1 (List.mem_cons_self ..)
  obtain ⟨w3, hreport, hb3⟩ := report_does N (σ := σ) (τ := .object o' :: τ) (ν := ν) s
    .callThrows hb2 [.object n] rfl hl
  refine ⟨w3, around_does (Does.append ?_ hreport), hb3⟩
  exact .cons (goesOn_plain (i := .simple Op.dup) rfl rfl) (.cons (goesOn_method rfl hclass)
    (.one (goesOn_method rfl hname)))

/-! ## Values as objects -/

/-- What is pushed for the value of a parameter. -/
inductive Boxed (xs : List (P.Object × Aside P.Object)) (t : JavaType)
    (value : List (Word P.Object)) : Word P.Object → Prop
  | reference {v} : t.isReference = true → value = [v] → Boxed xs t value v
  | primitive {o} : t.isReference = false → (o, .box t value) ∈ xs → Boxed xs t value (.object o)

theorem Boxed.mono {xs ys : List (P.Object × Aside P.Object)} {t : JavaType}
    {value : List (Word P.Object)} {v : Word P.Object} (hxs : xs ⊆ ys) (h : Boxed xs t value v) :
    Boxed ys t value v := by
  cases h with
  | reference h hv => exact .reference h hv
  | primitive h ho => exact .primitive h (hxs ho)

theorem boxing_reference {t : JavaType} (h : t.isReference = true) : t.boxing = [] := by
  cases t <;> first | rfl | cases h

theorem boxing_primitive {t : JavaType} {value : List (Word P.Object)} (hv : Word.Fits t value)
    (h : t.isReference = false) : ∃ wrapper, t.boxClass = some wrapper ∧
      t.boxing = [.method Op.invokestatic
        ⟨wrapper, "valueOf", "(" ++ t.descriptor ++ ")L" ++ wrapper ++ ";"⟩] := by
  cases hv with
  | null h' => rw [h] at h'; cases h'
  | object o h' => rw [h] at h'; cases h'
  | _ => exact ⟨_, rfl, rfl⟩

/-- A value of a primitive type becomes a wrapper; any other stays. -/
theorem boxing_does (hb : N.Beside w w' ρ xs) {t : JavaType} {value : List (Word P.Object)}
    (hv : Word.Fits t value) : ∃ w1 v ys,
    Does P σ t.boxing ⟨w', value ++ τ, ν⟩ ⟨w1, v :: τ, ν⟩ ∧ N.Beside w w1 ρ (ys ++ xs) ∧
      Boxed ys t value v := by
  cases h : t.isReference with
  | true =>
    rw [boxing_reference h]
    cases hv with
    | null h' => exact ⟨w', _, [], .nil, hb, .reference h rfl⟩
    | object o h' => exact ⟨w', _, [], .nil, hb, .reference h rfl⟩
    | _ => cases h
  | false =>
    obtain ⟨wrapper, hclass, hboxing⟩ := boxing_primitive hv h
    rw [hboxing]
    obtain ⟨w1, o, hbox, hb1⟩ := N.box τ hb hclass hv
    exact ⟨w1, _, [_], .one (goesOn_method rfl hbox), hb1, .primitive h (List.mem_singleton_self _)⟩

omit N in
theorem duplicating_does {t : JavaType} {value : List (Word P.Object)} (hv : Word.Fits t value) :
    Does P σ t.duplicating ⟨w', value ++ τ, ν⟩ ⟨w', value ++ (value ++ τ), ν⟩ := by
  have one : ∀ {t : JavaType} (v : Word P.Object), t.isReference = true →
      Does P σ t.duplicating ⟨w', v :: τ, ν⟩ ⟨w', v :: v :: τ, ν⟩ := by
    intro t v h
    cases t with
    | object name => exact .one (goesOn_plain (i := .simple Op.dup) rfl rfl)
    | array component => exact .one (goesOn_plain (i := .simple Op.dup) rfl rfl)
    | _ => cases h
  cases hv with
  | long n => exact .one (goesOn_plain (i := .simple Op.dup2) rfl rfl)
  | double b => exact .one (goesOn_plain (i := .simple Op.dup2) rfl rfl)
  | null h => exact one _ h
  | object o h => exact one _ h
  | _ => exact .one (goesOn_plain (i := .simple Op.dup) rfl rfl)

/-- The report of a return leaves the value that is returned on the stack. -/
theorem returnReport_does (s : WeaveSite) (hb : N.Beside w w' ρ xs) {value : List (Word P.Object)}
    (hv : (s.returnType = .void ∧ value = []) ∨ Word.Fits s.returnType value) {l : Nat}
    (hl : σ.bound ≤ l) : ∃ w1,
    Does P σ (s.returnReport l) ⟨w', value ++ τ, ν⟩ ⟨w1, value ++ τ, ν⟩ ∧
      N.Beside w w1 ρ [] := by
  rcases hv with ⟨ht, rfl⟩ | hv
  · obtain ⟨w1, hreport, hb1⟩ := report_does N (σ := σ) (τ := τ) (ν := ν) s .return hb
      [.null] rfl hl
    refine ⟨w1, around_does (Does.append ?_ hreport), hb1⟩
    rw [ht]
    exact .one (goesOn_plain (i := .simple Op.aconstNull) rfl rfl)
  · have twice : Does P σ s.returnType.duplicating ⟨w', value ++ τ, ν⟩
        ⟨w', value ++ (value ++ τ), ν⟩ := duplicating_does hv
    obtain ⟨w1, v, ys, hboxing, hb1, -⟩ :=
      boxing_does N (σ := σ) (τ := value ++ τ) (ν := ν) hb hv
    obtain ⟨w2, hreport, hb2⟩ := report_does N (σ := σ) (τ := value ++ τ) (ν := ν) s .return hb1
      [v] rfl hl
    exact ⟨w2, around_does ((twice.append hboxing).append hreport), hb2⟩

/-! ## Arguments -/

/-- The slots of a local variable of a type, the topmost first. -/
def slotsOf (t : JavaType) (ν : Nat → Word P.Object) (k : Nat) : List (Word P.Object) :=
  if t.slots = 2 then [ν (k + 1), ν k] else [ν k]

section Arguments

omit N

theorem slotsOf_eq {t : JavaType} {value : List (Word P.Object)} (hv : Word.Fits t value)
    {ν1 : Nat → Word P.Object} {k : Nat} (h : ∀ j < k + t.slots, ν1 j = ν j) :
    slotsOf t ν1 k = slotsOf t ν k := by
  have first := hv.slots_pos
  unfold slotsOf
  split
  · rw [h k (by omega), h (k + 1) (by omega)]
  · rw [h k (by omega)]

theorem load_goesOn {q : Pool} (t : JavaType) (slot : UInt16) :
    GoesOn P q (.var t.loadOpcode slot) ⟨w', τ, ν⟩ ⟨w', slotsOf t ν slot.toNat ++ τ, ν⟩ := by
  refine goesOn_plain ?_ ?_
  · cases t <;> rfl
  · cases t <;> rfl

/-- Storing the value that a variable has changes nothing. -/
theorem store_goesOn {q : Pool} (t : JavaType) (slot : UInt16) :
    GoesOn P q (.var t.storeOpcode slot) ⟨w', slotsOf t ν slot.toNat ++ τ, ν⟩ ⟨w', τ, ν⟩ := by
  have same : ∀ (s : P.Store) (k : Nat), s.set k (s.locals k) = s := by
    intro s k
    have : (fun j => if j = k then s.locals k else s.locals j) = s.locals := by
      funext j
      split
      · rename_i h
        rw [h]
      · rfl
    unfold Store.set
    rw [this]
  have narrow : ∀ op, Op.aload < op → Op.movesWide op = false →
      P.act q (.var op slot) ⟨w', ν slot.toNat :: τ, ν⟩ = .next ⟨w', τ, ν⟩ := by
    intro op h hw
    have hle : ¬ op ≤ Op.aload := UInt8.not_le.2 h
    simp only [Platform.act, hle, if_false, Store.store, hw, Bool.false_eq_true, Store.withStack]
    exact congrArg _ (same ⟨w', τ, ν⟩ _)
  have wide : ∀ op, Op.aload < op → Op.movesWide op = true →
      P.act q (.var op slot) ⟨w', ν (slot.toNat + 1) :: ν slot.toNat :: τ, ν⟩ =
        .next ⟨w', τ, ν⟩ := by
    intro op h hw
    have hle : ¬ op ≤ Op.aload := UInt8.not_le.2 h
    simp only [Platform.act, hle, if_false, Store.store, hw, if_true, Store.withStack]
    rw [same ⟨w', τ, ν⟩, same ⟨w', τ, ν⟩]
  refine goesOn_plain ?_ (by cases t <;> rfl)
  cases t with
  | long => exact wide Op.lstore (by decide) rfl
  | double => exact wide Op.dstore (by decide) rfl
  | float => exact narrow Op.fstore (by decide) rfl
  | object name => exact narrow Op.astore (by decide) rfl
  | array component => exact narrow Op.astore (by decide) rfl
  | _ => exact narrow Op.istore (by decide) rfl

/-- An operation on the elements of an array. -/
theorem goesOn_element {q : Pool} {op : Opcode} {s : P.Store} {w : P.World}
    (hop : op = Op.aaload ∨ op = Op.aastore)
    (h : P.perform (.simple op) s.world s.stack = .done w τ) :
    GoesOn P q (.op op) s { s with world := w, stack := τ } := by
  refine goesOn_plain ((?_ : P.act q (.simple op) s = P.carryOut q (.simple op) s).trans
    (carryOut_done rfl h)) ?_
  · rcases hop with rfl | rfl <;> rfl
  · rcases hop with rfl | rfl <;> rfl

end Arguments

variable {parameters : List (JavaType × UInt16)} {a : P.Object}

/-- Filling the array of the arguments, from an index on. -/
theorem filling_does (xs : List (P.Object × Aside P.Object)) (k : Nat) {elements : List (Word P.Object)}
    (hfits : ∀ p ∈ parameters, Word.Fits p.1 (slotsOf p.1 ν p.2.toNat))
    (hlen : elements.length = k + parameters.length)
    (hb : N.Beside w w' ρ (xs ++ [(a, .array elements)])) : ∃ w1 ys elements1,
    Does P σ ((parameters.zipIdx k).flatMap fun ((t, slot), i) =>
        [Template.op Op.dup, .pushInt (Int32.ofNat i), .var t.loadOpcode slot] ++ t.boxing ++ [.op Op.aastore])
      ⟨w', .object a :: τ, ν⟩ ⟨w1, .object a :: τ, ν⟩ ∧
    N.Beside w w1 ρ (ys ++ [(a, .array elements1)]) ∧ xs ⊆ ys ∧
    (∀ j < k, elements1[j]? = elements[j]?) ∧
    ∀ j p, parameters[j]? = some p →
      ∃ v, elements1[k + j]? = some v ∧ Boxed ys p.1 (slotsOf p.1 ν p.2.toNat) v := by
  induction parameters generalizing k w' xs elements with
  | nil => exact ⟨w', xs, elements, .nil, hb, fun _ h => h, fun _ _ => rfl, fun j p h => nomatch h⟩
  | cons p rest ih =>
    obtain ⟨t, slot⟩ := p
    rw [List.length_cons] at hlen
    obtain ⟨w1, v, zs, hboxing, hb1, hv⟩ := boxing_does N (σ := σ)
      (τ := .int (Int32.ofNat k) :: .object a :: .object a :: τ) (ν := ν) hb
      (hfits _ (List.mem_cons_self ..))
    rw [← List.append_assoc] at hb1
    obtain ⟨w2, hfill, hb2⟩ := N.fill (i := k) (v := v) (.object a :: τ) hb1 (by omega)
    obtain ⟨w3, ys, elements1, hrest, hb3, hxs, hbefore, helements⟩ := ih _ (k + 1)
      (fun p hp => hfits p (List.mem_cons_of_mem _ hp)) (by rw [List.length_set]; omega) hb2
    refine ⟨w3, ys, elements1, ?_, hb3, fun x hx => hxs (List.mem_append_right _ hx), ?_, ?_⟩
    · rw [List.zipIdx_cons, List.flatMap_cons]
      refine Does.append (Does.append (Does.append ?_ hboxing) ?_) hrest
      · exact .cons (goesOn_plain (i := .simple Op.dup) rfl rfl)
          (.cons (goesOn_pushInt _) (.one (load_goesOn t slot)))
      · exact .one (goesOn_element (.inr rfl) hfill)
    · intro j hj
      rw [hbefore j (by omega), List.getElem?_set_ne (by omega)]
    · intro j p hp
      cases j with
      | zero =>
        cases hp
        refine ⟨v, ?_, hv.mono fun x hx => hxs (List.mem_append_left _ hx)⟩
        rw [Nat.add_zero, hbefore k (Nat.lt_succ_self k), List.getElem?_set_self (by omega)]
      | succ j =>
        obtain ⟨v', hv', hboxed⟩ := helements j p hp
        refine ⟨v', ?_, hboxed⟩
        rw [← hv']
        congr 1
        omega

/-- The arguments in an array. -/
theorem packing_does (hcount : parameters.length < 65536)
    (hfits : ∀ p ∈ parameters, Word.Fits p.1 (slotsOf p.1 ν p.2.toNat))
    (hb : N.Beside w w' ρ []) : ∃ w1 a xs elements,
    Does P σ (Block.packing parameters) ⟨w', τ, ν⟩ ⟨w1, .object a :: τ, ν⟩ ∧
    N.Beside w w1 ρ xs ∧ (a, .array elements) ∈ xs ∧
    ∀ (j : Nat) (p : JavaType × UInt16), parameters[j]? = some p →
      ∃ v, elements[j]? = some v ∧ Boxed xs p.1 (slotsOf p.1 ν p.2.toNat) v := by
  obtain ⟨w1, a, harray, hb1⟩ := N.array τ hb hcount
  obtain ⟨w2, ys, elements, hfill, hb2, -, -, helements⟩ := filling_does N (σ := σ) (τ := τ)
    [] 0 hfits (by rw [List.length_replicate, Nat.zero_add]) hb1
  refine ⟨w2, a, _, elements, Does.append ?_ hfill, hb2,
    List.mem_append_right _ (List.mem_singleton_self _), fun j p hp => ?_⟩
  · exact .cons (goesOn_pushInt _) (.one (goesOn_type rfl harray))
  · obtain ⟨v, hv, hboxed⟩ := helements j p hp
    rw [Nat.zero_add] at hv
    exact ⟨v, hv, hboxed.mono fun x hx => List.mem_append_left _ hx⟩

/-- An object made for a value becomes the value again. -/
theorem unboxing_does (hb : N.Beside w w' ρ xs) {t : JavaType} {value value' : List (Word P.Object)}
    {v : Word P.Object} (hv : P.Conforms w t value) (hvalue : List.Forall₂ (Word.Alike ρ) value value')
    (hboxed : Boxed xs t value' v) : ∃ w1,
    Does P σ t.unboxing ⟨w', v :: τ, ν⟩ ⟨w1, value' ++ τ, ν⟩ ∧ N.Beside w w1 ρ xs := by
  cases hboxed with
  | reference ht hv' =>
    subst hv'
    have hcast : ∀ c, t.classOperand = some c → v = .null ∨ ∃ o, v = .object o ∧ P.isA w' o c = true := by
      intro c hc
      obtain ⟨hfits, hclass⟩ := hv
      cases hfits with
      | null h =>
        obtain ⟨-, -⟩ | ⟨hv, -⟩ := hvalue
        cases hv
        exact .inl rfl
      | object o h =>
        obtain ⟨-, -⟩ | ⟨hv, -⟩ := hvalue
        cases hv with
        | @object _ o' ho =>
        refine .inr ⟨o', rfl, ?_⟩
        rw [← N.isA hb ho]
        cases t with
        | object name => exact hclass c hc
        | array component => exact hclass c hc
        | _ => cases ht
      | _ => cases ht
    have checked : ∀ c, t.classOperand = some c → t.unboxing =
        (if c = objectClass then [] else [.type Op.checkcast c]) → ∃ w1,
        Does P σ t.unboxing ⟨w', v :: τ, ν⟩ ⟨w1, v :: τ, ν⟩ ∧ N.Beside w w1 ρ xs := by
      intro c hc hunboxing
      rw [hunboxing]
      split
      · exact ⟨w', .nil, hb⟩
      · obtain ⟨w1, h, hb1⟩ := N.cast τ hb (hcast c hc)
        exact ⟨w1, .one (goesOn_type rfl h), hb1⟩
    cases t with
    | object name => exact checked _ rfl rfl
    | array component => exact checked _ rfl rfl
    | _ => cases ht
  | @primitive o ht ho =>
    obtain rfl := Word.alike_eq (hv.1.plain ht) hvalue
    obtain ⟨owner, name, descriptor, hunboxing⟩ : ∃ owner name descriptor,
        t.unboxing = JavaType.unwrapping owner name descriptor := by
      cases hv.1 with
      | null h => rw [ht] at h; cases h
      | object o h => rw [ht] at h; cases h
      | _ => exact ⟨_, _, _, rfl⟩
    obtain ⟨w1, hcast, hb1⟩ := N.castBox τ hb ho hunboxing
    obtain ⟨w2, hunbox, hb2⟩ := N.unbox τ hb1 ho hunboxing hv
    rw [hunboxing]
    exact ⟨w2, .cons (goesOn_type rfl hcast) (.one (goesOn_method rfl hunbox)), hb2⟩

/-- The values of the parameters conform to their types, where the method runs without reports. -/
def Holding (w : P.World) (ρ : P.Object → P.Object → Prop) (ν : Nat → Word P.Object)
    (p : JavaType × UInt16) : Prop :=
  ∃ value, P.Conforms w p.1 value ∧ List.Forall₂ (Word.Alike ρ) value (slotsOf p.1 ν p.2.toNat)

/-- Storing the elements of the array that was filled with them leaves the parameters as they are. -/
theorem unpacking_does (k : Nat) (arguments : UInt16) {elements : List (Word P.Object)}
    (ha : ν arguments.toNat = .object a) (hmem : (a, .array elements) ∈ xs)
    (hholding : ∀ p ∈ parameters, Holding w ρ ν p)
    (helements : ∀ j p, parameters[j]? = some p →
      ∃ v, elements[k + j]? = some v ∧ Boxed xs p.1 (slotsOf p.1 ν p.2.toNat) v)
    (hb : N.Beside w w' ρ xs) : ∃ w1,
    Does P σ ((parameters.zipIdx k).flatMap fun ((t, slot), i) =>
        [Template.var Op.aload arguments, .pushInt (Int32.ofNat i), .op Op.aaload] ++ t.unboxing ++
          [Template.var t.storeOpcode slot])
      ⟨w', τ, ν⟩ ⟨w1, τ, ν⟩ ∧ N.Beside w w1 ρ xs := by
  induction parameters generalizing k w' with
  | nil => exact ⟨w', .nil, hb⟩
  | cons p rest ih =>
    obtain ⟨t, slot⟩ := p
    obtain ⟨v, hv, hboxed⟩ := helements 0 _ rfl
    obtain ⟨value, hconforms, hvalue⟩ := hholding _ (List.mem_cons_self ..)
    obtain ⟨w1, helement, hb1⟩ := N.element τ hb hmem hv
    obtain ⟨w2, hunboxing, hb2⟩ := unboxing_does N (σ := σ) (τ := τ) (ν := ν) hb1 hconforms
      hvalue hboxed
    obtain ⟨w3, hrest, hb3⟩ := ih (k + 1) (fun p hp => hholding p (List.mem_cons_of_mem _ hp))
      (fun j p hp => by
        obtain ⟨v, hv, hboxed⟩ := helements (j + 1) p hp
        exact ⟨v, by rw [← hv]; congr 1; omega, hboxed⟩) hb2
    refine ⟨w3, ?_, hb3⟩
    rw [List.zipIdx_cons, List.flatMap_cons]
    refine Does.append (Does.append (Does.append ?_ hunboxing) (.one (store_goesOn t slot))) hrest
    have hload : GoesOn P σ.pool (.var Op.aload arguments) ⟨w', τ, ν⟩
        ⟨w', .object a :: τ, ν⟩ := by
      rw [← ha]
      exact goesOn_plain (i := .var Op.aload arguments) rfl rfl
    exact .cons hload (.cons (goesOn_pushInt _) (.one (goesOn_element (.inl rfl) helement)))

/-- The report of the start leaves everything as it was but for the local variable that it takes. -/
theorem startReport_does (s : WeaveSite) (arguments : UInt16) (hb : N.Beside w w' ρ [])
    (hcount : s.parameters.length < 65536)
    (hparameters : ∀ p ∈ s.parameters, p.2.toNat + p.1.slots ≤ arguments.toNat ∧ Holding w ρ ν p)
    {l : Nat} (hl : σ.bound ≤ l) : ∃ w1 ν1,
    Does P σ (s.startReport arguments l) ⟨w', τ, ν⟩ ⟨w1, τ, ν1⟩ ∧ N.Beside w w1 ρ [] ∧
      ∀ k < arguments.toNat, ν1 k = ν k := by
  have hfits : ∀ p ∈ s.parameters, Word.Fits p.1 (slotsOf p.1 ν p.2.toNat) := by
    intro p hp
    obtain ⟨-, value, hconforms, hvalue⟩ := hparameters p hp
    exact hconforms.1.alike hvalue
  obtain ⟨w1, a, xs, elements, hpacking, hb1, hmem, helements⟩ :=
    packing_does N (σ := σ) (τ := τ) hcount hfits hb
  let ν1 : Nat → Word P.Object := fun k => if k = arguments.toNat then .object a else ν k
  have hbelow : ∀ k < arguments.toNat, ν1 k = ν k := fun k hk => if_neg (Nat.ne_of_lt hk)
  have hslots : ∀ p ∈ s.parameters, slotsOf p.1 ν1 p.2.toNat = slotsOf p.1 ν p.2.toNat :=
    fun p hp => slotsOf_eq (hfits p hp) fun k hk =>
      hbelow k (Nat.lt_of_lt_of_le hk (hparameters p hp).1)
  obtain ⟨w2, space, hspace, hb2⟩ := N.text s.plan.space (.object a :: τ) hb1
  obtain ⟨w3, name, hname, hb3⟩ := N.text s.plan.className
    (.int s.plan.loader :: .int s.plan.listener :: .object space :: .object a :: τ) hb2
  obtain ⟨w4, method, hmethod, hb4⟩ := N.text s.context.name
    (.object name :: .int s.plan.loader :: .int s.plan.listener :: .object space :: .object a :: τ) hb3
  obtain ⟨w5, descriptor, hdescriptor, hb5⟩ := N.text s.context.descriptor.descriptor
    (.object method :: .object name :: .int s.plan.loader :: .int s.plan.listener ::
      .object space :: .object a :: τ) hb4
  obtain ⟨this, hthis⟩ : ∃ this, GoesOn P σ.pool
      (if s.context.isStatic then .op Op.aconstNull else .var Op.aload 0)
      ⟨w5, [.object descriptor, .object method, .object name, .int s.plan.loader,
        .int s.plan.listener, .object space, .object a] ++ τ, ν1⟩
      ⟨w5, this :: [.object descriptor, .object method, .object name, .int s.plan.loader,
        .int s.plan.listener, .object space, .object a] ++ τ, ν1⟩ := by
    split
    · exact ⟨_, goesOn_plain (i := .simple Op.aconstNull) rfl rfl⟩
    · exact ⟨_, goesOn_plain (i := .var Op.aload 0) rfl rfl⟩
  obtain ⟨w6, r, hreport, hb6⟩ := N.report .before
    [this, .object descriptor, .object method, .object name, .int s.plan.loader,
      .int s.plan.listener, .object space, .object a] τ hb5 rfl
  obtain ⟨w7, hcheck, hb7⟩ := verdictCheck_does N (σ := σ) (ν := ν1) (τ := τ) hb6
    (List.mem_cons_self ..) s.returnType hl
  obtain ⟨w8, hunpacking, hb8⟩ := unpacking_does N (σ := σ) (τ := τ) 0 arguments
    (if_pos rfl) (List.mem_cons_of_mem _ hmem)
    (fun p hp => by
      unfold Holding
      rw [hslots p hp]
      exact (hparameters p hp).2)
    (fun j p hp => by
      obtain ⟨v, hv, hboxed⟩ := helements j p hp
      rw [Nat.zero_add, hslots p (List.mem_of_getElem? hp)]
      exact ⟨v, hv, hboxed.mono fun x hx => List.mem_cons_of_mem _ hx⟩) hb7
  refine ⟨w8, ν1, around_does (hpacking.append (Does.append ?_ (hcheck.append hunpacking))),
    N.forget hb8, hbelow⟩
  have hload : GoesOn P σ.pool (.var Op.aload arguments) ⟨w1, τ, ν1⟩
      ⟨w1, .object a :: τ, ν1⟩ := by
    have : ν1 arguments.toNat = .object a := if_pos rfl
    rw [← this]
    exact goesOn_plain (i := .var Op.aload arguments) rfl rfl
  exact .cons (goesOn_plain (i := .var Op.astore arguments) rfl rfl) (.cons hload
    (.cons (goesOn_pushString hspace) (.cons (goesOn_pushInt _) (.cons (goesOn_pushInt _)
    (.cons (goesOn_pushString hname) (.cons (goesOn_pushString hmethod)
    (.cons (goesOn_pushString hdescriptor) (.cons hthis (.one (goesOn_method rfl hreport))))))))))

/-- The handler of the method has the exception on the stack again where it throws it. -/
theorem throwsReport_does (s : WeaveSite) (hb : N.Beside w w' ρ xs) {o : P.Object} (thrown : UInt16)
    {l : Nat} (hl : σ.bound ≤ l) : ∃ front w1 ν1, s.throwsReport thrown l = front ++ [.op Op.athrow] ∧
      Does P σ front ⟨w', [.object o], ν⟩ ⟨w1, [.object o], ν1⟩ ∧ N.Beside w w1 ρ [] := by
  let ν1 : Nat → Word P.Object := fun k => if k = thrown.toNat then .object o else ν k
  obtain ⟨w1, hreport, hb1⟩ := report_does N (σ := σ) (τ := []) (ν := ν1) s .throws hb
    [.object o] rfl hl
  have hload : ∀ w : P.World, GoesOn P σ.pool (.var Op.aload thrown) ⟨w, [], ν1⟩
      ⟨w, [.object o], ν1⟩ := by
    intro w
    have : ν1 thrown.toNat = .object o := if_pos rfl
    rw [← this]
    exact goesOn_plain (i := .var Op.aload thrown) rfl rfl
  refine ⟨Marker.opening ++ ([Template.var Op.astore thrown, .var Op.aload thrown] ++ (s.report .throws l ++
    (Marker.closing ++ [Template.var Op.aload thrown]))), w1, ν1, by simp [WeaveSite.throwsReport], ?_, hb1⟩
  refine (opening_does _).append (Does.append ?_ (hreport.append
    ((closing_does _).append (.one (hload w1)))))
  exact .cons (goesOn_plain (i := .var Op.astore thrown) rfl rfl) (.one (hload w'))

end Stage

end Interpose
