import Interpose.Proofs.Code.Inverse
import Interpose.Proofs.Inference.Height
/-!
# Balanced code

Whether code hangs together does not depend on types: its labels are placed, its protected ranges hold
something that takes bytes, every instruction finds on the stack what it takes, and control stays within
the code. All of that is found by counting along the paths of control (`Body.Balanced`).

* `balanced_of_analyze`: a body that is analysed is balanced.
* `analyze_balanced`: a balanced body is analysed, or its types or its size are at fault.
* `encode_balanced`: a balanced body is encoded, or its instructions or its size are at fault.
-/

namespace Interpose

/-- The code does not hang together, whatever its types are. -/
def CodeError.IsStructural : CodeError → Prop
  | .undefinedLabel _ | .emptyHandlerRange _ | .stackUnderflow _ | .fallOffEnd => True
  | _ => False

/-- The computation does not find that code does not hang together, and if it succeeds there is more to say
of its answer. -/
def Balances {α : Type} (post : α → Prop) : Except CodeError α → Prop
  | .ok a => post a
  | .error e => ¬ e.IsStructural

namespace Balances

variable {α β : Type} {post : α → Prop} {post' : β → Prop}

theorem bind {x : Except CodeError α} {f : α → Except CodeError β} (hx : Balances post x)
    (hf : ∀ a, x = .ok a → post a → Balances post' (f a)) : Balances post' (x >>= f) := by
  cases x with
  | error e => exact hx
  | ok a => exact hf a rfl hx

theorem map {x : Except CodeError α} {f : α → β} (hx : Balances (fun a => post' (f a)) x) :
    Balances post' (x.map f) := by
  cases x with
  | error e => exact hx
  | ok a => exact hx

theorem any {x : Except CodeError α} (hx : Balances post x) : Balances (fun _ => True) x := by
  cases x with
  | error e => exact hx
  | ok a => trivial

theorem format (x : Except FormatError α) : Balances (fun _ => True) (x.mapError .format) := by
  cases x with
  | error e => exact id
  | ok a => trivial

theorem mapM {f : α → Except CodeError β} {xs : List α} (hf : ∀ x ∈ xs, Balances (fun _ => True) (f x)) :
    Balances (fun _ => True) (xs.mapM f) := by
  induction xs with
  | nil => trivial
  | cons x xs ih =>
    rw [List.mapM_cons]
    exact (hf x (List.mem_cons_self ..)).bind fun _ _ _ =>
      (ih fun y hy => hf y (List.mem_cons_of_mem _ hy)).bind fun _ _ _ => trivial

theorem foldlM {f : β → α → Except CodeError β} {xs : List α}
    (hf : ∀ x ∈ xs, ∀ b, Balances (fun _ => True) (f b x)) (b : β) :
    Balances (fun _ => True) (xs.foldlM f b) := by
  induction xs generalizing b with
  | nil => trivial
  | cons x xs ih =>
    rw [List.foldlM_cons]
    exact (hf x (List.mem_cons_self ..) b).bind fun b' _ _ =>
      ih (fun y hy => hf y (List.mem_cons_of_mem _ hy)) b'

end Balances

/-! ## Instructions -/

namespace Machine

variable {m : Machine} {i n : Nat}

theorem popSlots_balances (h : n ≤ m.stack.length) :
    Balances (fun r => r.2.stack.length = m.stack.length - n) (m.popSlots i n) := by
  unfold popSlots
  rw [if_neg (Nat.not_lt_of_le h)]
  exact List.length_drop

theorem dropSlots_balances (h : n ≤ m.stack.length) :
    Balances (fun m' => m'.stack.length = m.stack.length - n) (m.dropSlots i n) :=
  (popSlots_balances h).map

theorem pop_balances (h : 1 ≤ m.stack.length) :
    Balances (fun r => r.2.stack.length = m.stack.length - 1) (m.pop i) := by
  unfold pop
  cases hs : m.stack with
  | nil =>
    rw [hs] at h
    exact absurd h (Nat.not_succ_le_zero 0)
  | cons v stack => rfl

theorem popReference_balances (h : 1 ≤ m.stack.length) :
    Balances (fun r => r.2.stack.length = m.stack.length - 1) (m.popReference i) := by
  refine (pop_balances h).bind fun (v, m') _ hm' => ?_
  dsimp only
  split
  · exact hm'
  · exact id

theorem load_balances (op : Opcode) (slot : Nat) : Balances (fun _ => True) (m.load i op slot) := by
  unfold load
  split
  · exact id
  · repeat' split
    all_goals first | trivial | exact id

theorem store_balances {op : Opcode} (slot : Nat) (h : Op.movedSlots op ≤ m.stack.length) :
    Balances (fun _ => True) (m.store i op slot) := by
  have hone : 1 ≤ Op.movedSlots op := by
    unfold Op.movedSlots
    split <;> decide
  unfold store
  dsimp only
  split
  · rename_i hwide
    have htwo : Op.movedSlots op = 2 := by
      simp only [Bool.or_eq_true, decide_eq_true_eq] at hwide
      rcases hwide with rfl | rfl <;> rfl
    exact (popSlots_balances (htwo ▸ h)).bind fun _ _ _ => trivial
  · split
    · exact (popReference_balances (Nat.le_trans hone h)).bind fun _ _ _ => trivial
    · exact (pop_balances (Nat.le_trans hone h)).bind fun _ _ _ => trivial

theorem simple_balances {op : Opcode} (h : ∀ e, Op.effect op = some e → e.taken ≤ m.stack.length) :
    Balances (fun _ => True) (m.simple i op) := by
  have taken {e : SimpleEffect} (he : simpleEffect op = some e) : e.height.taken ≤ m.stack.length :=
    h _ (by rw [Op.effect_eq, he]; rfl)
  unfold simple
  split
  · exact id
  · rename_i he
    exact (dropSlots_balances (taken he)).bind fun _ _ _ => trivial
  · rename_i he
    exact (popReference_balances (taken he)).bind fun _ _ _ => trivial
  · rename_i he
    have htwo : 2 ≤ m.stack.length := taken he
    refine (pop_balances (Nat.le_of_succ_le htwo)).bind fun (_, m') _ hm' => ?_
    have hone : 1 ≤ m'.stack.length := by
      simp only at hm'
      omega
    exact (popReference_balances hone).bind fun _ _ _ => trivial
  · rename_i he
    exact (popSlots_balances (taken he)).bind fun _ _ _ => trivial
  · rename_i he
    exact (popSlots_balances (taken he)).bind fun _ _ _ => trivial

end Machine

section Execute

open Machine

variable {pool : Pool} {owner : String} {i : Nat} {m : Machine}

theorem constantType_balances (index : UInt16) :
    Balances (fun _ => True) (constantType pool i index) := by
  refine (Balances.format _).bind fun c _ _ => ?_
  split
  all_goals first
    | trivial
    | exact id
    | exact (Balances.format _).bind fun _ _ _ => (Balances.format _).bind fun _ _ _ => trivial

theorem field_balances {op : Opcode} {index : UInt16}
    (h : ∀ e, (Insn.field op index).effect pool = some e → e.taken ≤ m.stack.length) :
    Balances (fun _ => True) (execute pool owner i (.field op index) m) := by
  refine (Balances.format _).bind fun ref hr _ => (Balances.format _).bind fun type ht _ => ?_
  simp only [Insn.effect, bind_toOption (mapError_eq_ok.1 hr), bind_toOption (mapError_eq_ok.1 ht)] at h
  have h := h _ rfl
  dsimp only
  split
  · trivial
  rw [if_neg ‹_›] at h
  split
  · rw [if_pos ‹_›] at h
    exact (dropSlots_balances h).any
  rw [if_neg ‹_›] at h
  split
  · rw [if_pos ‹_›] at h
    exact (popReference_balances h).bind fun _ _ _ => trivial
  · rw [if_neg ‹_›] at h
    have hall : type.slots + 1 ≤ m.stack.length := h
    refine (dropSlots_balances (Nat.le_of_succ_le hall)).bind fun m' _ hm' => ?_
    exact (popReference_balances (by omega)).bind fun _ _ _ => trivial

theorem method_balances {op : Opcode} {index : UInt16}
    (h : ∀ e, (Insn.method op index).effect pool = some e → e.taken ≤ m.stack.length) :
    Balances (fun _ => True) (execute pool owner i (.method op index) m) := by
  refine (Balances.format _).bind fun ref hr _ => (Balances.format _).bind fun d hd _ => ?_
  simp only [Insn.effect, bind_toOption (mapError_eq_ok.1 hr), bind_toOption (mapError_eq_ok.1 hd)] at h
  have h := h _ rfl
  by_cases hop : op = Op.invokestatic
  · rw [if_pos hop] at h
    refine (dropSlots_balances h).bind fun m' _ _ => ?_
    rw [if_pos hop]
    trivial
  · rw [if_neg hop] at h
    have hall : d.parameterSlots + 1 ≤ m.stack.length := h
    refine (dropSlots_balances (Nat.le_of_succ_le hall)).bind fun m' _ hm' => ?_
    rw [if_neg hop]
    exact (popReference_balances (by omega)).bind fun _ _ _ => trivial

theorem dynamic_balances {index : UInt16}
    (h : ∀ e, (Insn.dynamic index).effect pool = some e → e.taken ≤ m.stack.length) :
    Balances (fun _ => True) (execute pool owner i (.dynamic index) m) := by
  have hdescriptor : Balances (fun d => (Insn.dynamic index).effect pool = some d.effect)
      (callSiteDescriptor pool i index) := by
    refine (Balances.format _).bind fun c hc _ => ?_
    cases c with
    | invokeDynamic bootstrap nat =>
      refine (Balances.format _).bind fun (_, descriptor) hx _ => ?_
      dsimp only
      cases hd : MethodDescriptor.ofDescriptor descriptor with
      | error e => exact id
      | ok d =>
        change (Insn.dynamic index).effect pool = some d.effect
        simp only [Insn.effect, mapError_eq_ok.1 hc, bind_toOption (mapError_eq_ok.1 hx), bind_toOption hd]
        rfl
    | _ => exact id
  refine hdescriptor.bind fun d _ hd => ?_
  exact (dropSlots_balances (h _ hd)).bind fun _ _ _ => trivial

/-- An instruction that finds on the stack what it takes fails for other reasons. -/
theorem execute_balances {insn : Insn} (h : ∀ e, insn.effect pool = some e → e.taken ≤ m.stack.length) :
    Balances (fun _ => True) (execute pool owner i insn m) := by
  cases insn with
  | label _ | line _ => trivial
  | simple op => exact simple_balances h
  | int op value =>
    have h := h _ rfl
    simp only [execute]
    split
    · rw [if_pos ‹_›] at h
      refine (pop_balances h).bind fun r _ _ => ?_
      obtain ⟨_, m'⟩ := r
      dsimp only
      split
      · trivial
      · exact id
    · trivial
  | var op slot =>
    have h := h _ rfl
    simp only [execute]
    split
    · exact load_balances op _
    · rw [if_neg ‹_›] at h
      exact store_balances _ h
  | iinc slot _ =>
    simp only [execute]
    split
    · trivial
    · exact id
  | type op index =>
    have h := h _ rfl
    refine (Balances.format _).bind fun name _ _ => ?_
    dsimp only
    split
    · trivial
    · rw [if_neg ‹_›] at h
      split
      · exact (pop_balances h).bind fun _ _ _ => trivial
      · exact (popReference_balances h).bind fun _ _ _ => trivial
  | field op index => exact field_balances h
  | method op index => exact method_balances h
  | dynamic index => exact dynamic_balances h
  | ldc index => exact (constantType_balances index).bind fun _ _ _ => trivial
  | jump op _ =>
    have h := h _ rfl
    simp only [execute]
    split
    · trivial
    · rw [if_neg ‹_›] at h
      split
      · rw [if_pos ‹_›] at h
        exact (dropSlots_balances h).any
      · rw [if_neg ‹_›] at h
        exact (dropSlots_balances h).any
  | tableSwitch _ _ _ | lookupSwitch _ _ => exact (dropSlots_balances (h _ rfl)).any
  | multiNewArray index dims =>
    exact (dropSlots_balances (h _ rfl)).bind fun _ _ _ => (Balances.format _).bind fun _ _ _ => trivial

end Execute

/-! ## Bodies -/

/-- Code hangs together. -/
structure Body.Balanced (pool : Pool) (b : Body) : Prop where
  placed : ∀ insn ∈ b.insns, ∀ l ∈ insn.targets, ∃ i, LastPlace b.insns l i
  ranges : ∀ t ∈ b.tryCatch, (∃ i insn, b.insns[i]? = some insn ∧ insn.isPseudo = false ∧
    t.Covers b.insns i) ∧ ∃ i, LastPlace b.insns t.handler i
  paths : ∀ i height, ControlPath pool b i height → ∃ insn e, b.insns[i]? = some insn ∧
    insn.effect pool = some e ∧ e.taken ≤ height

namespace Analysis

variable {b : Body} {context : MethodContext} {pool : Pool} {h : Hierarchy} {a : Analysis}

/-- A body that is analysed is balanced. -/
theorem balanced_of_analyze (ha : analyze b context pool h = .ok a) : b.Balanced pool := by
  refine ⟨fun insn hinsn l hl => placed_of_analyze ha hinsn hl, fun t ht => ?_, fun i height hi => ?_⟩
  · obtain ⟨m, -, hm, -⟩ := analyze_eq_ok ha
    obtain ⟨g, -, hstart, hstop, hhandler, -, hreal, -⟩ := (mem_forall₂ (of_ofBody hm).guards).1 t ht
    obtain ⟨i, insn, hlo, hhi, hinsn, hpseudo⟩ := anyReal_eq_true.1 hreal
    rw [List.getElem?_toArray] at hinsn
    exact ⟨⟨i, insn, hinsn, hpseudo, _, _, hstart, hstop, hlo, hhi⟩, _, hhandler⟩
  · obtain ⟨insn, -, e, hinsn, -, -, he, htaken, -⟩ := path_counted ha hi
    exact ⟨insn, e, hinsn, he, htaken⟩

section Resolved

variable {m : Method} (hm : m.Of b context pool h)
include hm

/-- The height of every frame is that of a path. -/
theorem Method.Of.keeps_height : m.Keeps (fun i f => ControlPath pool b i f.stack.length)
    (fun i f => ControlPath pool b i f.stack.length) where
  delivers {i f insn ds after} hf hinsn hds := by
    rw [hm.insn] at hinsn
    obtain ⟨hexecute, jumps, next, hjumps, hnext, rfl⟩ := Method.deliveries_eq_ok.1 hds
    rw [hm.pool] at hexecute
    obtain ⟨e, he, -, hafter⟩ := execute_height hexecute
    intro t ht
    rw [List.mem_append, List.mem_append] at ht
    rcases ht with (ht | ht) | ht
    · obtain ⟨hreal, g, hg, hcovers, rfl⟩ := Method.mem_toHandlers.1 ht
      obtain ⟨t, ht, hstart, hstop, hhandler, -⟩ := (mem_forall₂ hm.guards).2 g hg
      obtain ⟨_, _, hstart, hstop, hfrom, hto⟩ := (Guard.covers_eq_true hstart hstop).1 hcovers
      exact .thrown hf hinsn hreal ht hstart hstop hfrom hto hhandler
    · obtain ⟨l, hl, hplace, htf⟩ := (mem_forall₂ hjumps).2 t ht
      rw [htf, hafter]
      exact .jump hf hinsn he hl ((hm.positions _ _).1 hplace)
    · rcases hnext with ⟨-, rfl⟩ | ⟨hon, -, rfl⟩
      · cases ht
      · rw [List.mem_singleton.1 ht, hafter]
        exact .next hf hinsn he hon
  arrives hg _ hk := by
    rw [(height_arrive hk).1]
    exact hg

/-- An instruction of a balanced body that is executed on a path fails for reasons of types only. -/
theorem Method.Of.deliveries_balances (hb : b.Balanced pool) {i : Nat} {f : Frame} {insn : Insn}
    (hf : ControlPath pool b i f.stack.length) (hinsn : b.insns[i]? = some insn) :
    Balances (fun _ => True) (m.deliveries i insn f) := by
  obtain ⟨insn', e, hinsn', he, htaken⟩ := hb.paths i _ hf
  cases hinsn.symm.trans hinsn'
  have hexecute : Balances (fun _ => True) (execute m.pool m.context.owner i insn { f with peak := 0 }) := by
    rw [hm.pool]
    refine execute_balances fun e' he' => ?_
    cases he.symm.trans he'
    exact htaken
  refine hexecute.bind fun after _ _ => (Balances.mapM fun l hl => ?_).bind fun jumps _ _ => ?_
  · obtain ⟨j, hj⟩ := hb.placed insn (List.mem_of_getElem? hinsn) l hl
    rw [labelAt_eq_ok.2 ((hm.positions l j).2 hj)]
    trivial
  · dsimp only
    split
    · trivial
    · rename_i hterminal
      obtain ⟨_, _, hnext, -⟩ := hb.paths (i + 1) _ (.next hf hinsn he (eq_false_of_ne_true hterminal))
      rw [if_pos (hm.size ▸ (List.getElem?_eq_some_iff.1 hnext).1)]
      trivial

omit hm in
theorem Progress.deliver_balances (p : Progress) (t : Nat) (g : Frame) :
    Balances (fun _ => True) (p.deliver m t g) := by
  have harrive : Balances (fun _ => True) (m.arrive t (p.frames[t]?).join g) := by
    rw [Method.arrive_eq]
    refine Balances.map ?_
    cases (p.frames[t]?).join with
    | none => trivial
    | some f =>
      simp only [Option.elim_some, Frame.merge]
      split
      · trivial
      · exact id
  refine harrive.bind fun merged _ _ => ?_
  split
  · trivial
  · dsimp only
    split <;> trivial

namespace Progress

variable (hb : b.Balanced pool) {p : Progress} (hp : p.All fun i f => ControlPath pool b i f.stack.length)
include hb hp

theorem step_balances (i : Nat) : Balances (fun _ => True) (p.step m i) := by
  unfold step
  dsimp only
  split
  · rename_i f insn hf hinsn
    rw [hm.insn] at hinsn
    exact (hm.deliveries_balances hb (hp i f hf) hinsn).bind fun _ _ _ =>
      Balances.foldlM (fun _ _ p => p.deliver_balances _ _) _
  · trivial

theorem run_balances (limit : Nat) : Balances (fun _ => True) (p.run m limit) := by
  induction limit generalizing p with
  | zero =>
    unfold run
    split
    · trivial
    · exact id
  | succ limit ih =>
    unfold run
    split
    · trivial
    · rename_i i p' hn
      have hstep := step_balances hm hb (all_next hp hn) i
      split
      · rename_i hfails
        rw [hfails] at hstep
        exact hstep
      · rename_i hq
        exact ih (step_kept hm.keeps_height (all_next hp hn) hq)

theorem exhaust_balances {r : Except CodeError Progress} (hr : p.exhaust m = some r) :
    Balances (fun _ => True) r := by
  suffices ∀ p r, exhaust m p = some r → p.All (fun i f => ControlPath pool b i f.stack.length) →
      Balances (fun _ => True) r from this p r hr hp
  refine exhaust.partial_correctness m _ fun exhaust ih p r hr hp => ?_
  split at hr
  · cases hr
    trivial
  · rename_i i p' hn
    have hstep := step_balances hm hb (all_next hp hn) i
    split at hr
    · rename_i hfails
      cases hr
      rw [hfails] at hstep
      exact hstep
    · rename_i hq
      exact ih _ _ hr (step_kept hm.keeps_height (all_next hp hn) hq)

theorem finish_balances (limit : Nat) : Balances (fun _ => True) (p.finish m limit) := by
  unfold finish
  split
  · cases hr : p.exhaust m with
    | none => exact id
    | some r => exact exhaust_balances hm hb hp hr
  · exact run_balances hm hb hp limit

end Progress

end Resolved

/-- If a balanced body is not analysed, its types or its size are at fault. -/
theorem analyze_balanced (hb : b.Balanced pool) (context : MethodContext) (h : Hierarchy) :
    Balances (fun _ => True) (analyze b context pool h) := by
  have position {l : Label} (hl : ∃ i, LastPlace b.insns l i) :
      Balances (fun _ => True) (labelAt (labelPositions b.insns) l) := by
    obtain ⟨i, hi⟩ := hl
    rw [labelAt_eq_ok.2 (labelPositions_eq_some.2 hi)]
    trivial
  have hguard (t : TryCatch) (ht : t ∈ b.tryCatch) :
      Balances (fun _ => True) (guard pool b.insns.toArray (labelPositions b.insns) t) := by
    obtain ⟨⟨i, insn, hinsn, hreal, x, y, hx, hy, hxi, hiy⟩, hhandler⟩ := hb.ranges t ht
    unfold guard
    rw [labelAt_eq_ok.2 (labelPositions_eq_some.2 hx), labelAt_eq_ok.2 (labelPositions_eq_some.2 hy)]
    refine (position hhandler).bind fun handler _ _ => ?_
    have hany : anyReal b.insns.toArray x y = true :=
      anyReal_eq_true.2 ⟨i, insn, hxi, hiy, by rw [List.getElem?_toArray, hinsn], hreal⟩
    simp only [Nat.lt_of_le_of_lt hxi hiy, hany, decide_true, Bool.and_self, Bool.not_true, Bool.false_eq_true,
      if_false]
    split
    · trivial
    · exact (Balances.format _).bind fun _ _ _ => trivial
  have hmethod : Balances (fun _ => True) (Method.ofBody b context pool h) :=
    (Balances.mapM hguard).bind fun _ _ _ => trivial
  refine hmethod.bind fun m hm _ => ?_
  have hof := of_ofBody hm
  have htargets : Balances (fun _ => True) (jumpTargets b.insns m.positions m.guards) := by
    refine Balances.foldlM (fun insn hinsn targets => Balances.foldlM (fun l hl targets => ?_) targets) _
    obtain ⟨i, hi⟩ := hb.placed insn hinsn l hl
    rw [labelAt_eq_ok.2 ((hof.positions l i).2 hi)]
    trivial
  refine htargets.bind fun targets _ _ => ?_
  obtain ⟨_, _, hfirst, -⟩ := hb.paths 0 0 .start
  have hsize : m.code.isEmpty = false := by
    have hpos := (List.getElem?_eq_some_iff.1 hfirst).1
    rw [← hof.size] at hpos
    simpa [Array.isEmpty, Nat.ne_of_gt] using Nat.ne_of_gt hpos
  simp only [hsize, Bool.false_eq_true, if_false]
  have hstart : (Progress.start m b.maxLocals.toNat).All fun i f => ControlPath pool b i f.stack.length :=
    Progress.start_all .start
  refine (Progress.finish_balances hof hb hstart _).bind fun p _ _ => ?_
  split
  · exact id
  · split
    · exact id
    · trivial

end Analysis

/-! ## Encoding -/

section Encoding

variable {insns : List Insn} {pool : Pool}

/-- A label that is placed has an offset. -/
theorem Layout.Fits.offsetOf {l : Layout} (hl : l.Fits insns) {label : Label} {i : Nat}
    (hi : LastPlace insns label i) : ∃ o, l.offsets[i]? = some o ∧ l.offsetOf label = .ok o := by
  have ho := List.getElem?_eq_getElem (hl.offsets.symm ▸ hi.lt)
  exact ⟨_, ho, Layout.offsetOf_eq_ok.2 ((hl.labels _ _).2 ⟨i, hi, ho⟩)⟩

namespace Layout

variable {l : Layout}

theorem offsetOf_balances (hl : l.Fits insns) {label : Label} (h : ∃ i, LastPlace insns label i) :
    Balances (fun _ => True) (l.offsetOf label) := by
  obtain ⟨i, hi⟩ := h
  obtain ⟨o, -, ho⟩ := hl.offsetOf hi
  rw [ho]
  trivial

theorem settle_balances (h : ∀ insn ∈ insns, ∀ l ∈ insn.targets, ∃ i, LastPlace insns l i)
    {passes : Nat} {widths : Widths} (hwidths : widths.length = insns.length) :
    Balances (fun _ => True) (settle pool insns passes widths) := by
  induction passes generalizing widths with
  | zero => exact id
  | succ passes ih =>
    have hl := ofWidths_fits pool hwidths
    have hwiden : Balances (fun _ => True) ((ofWidths pool insns widths).widen insns) := by
      refine Balances.mapM fun x hx => ?_
      obtain ⟨⟨insn, pc⟩, wide⟩ := x
      have hinsn := (List.of_mem_zip (List.of_mem_zip hx).1).1
      change Balances _ (widened _ insn pc wide)
      cases insn with
      | jump op target =>
        unfold widened
        dsimp only
        split
        · trivial
        · exact (offsetOf_balances hl (h _ hinsn target (List.mem_singleton_self _))).bind fun _ _ _ => trivial
      | _ => trivial
    refine hwiden.bind fun wider hwider _ => ?_
    split
    · trivial
    · refine ih ?_
      rw [← (mapM_eq_ok.1 hwider).length_eq, List.length_zip, List.length_zip, hl.offsets, hl.widths,
        Nat.min_self, Nat.min_self]

end Layout

namespace Encode

variable {l : Layout} (hl : l.Fits insns)
include hl

theorem bytesOfTarget_balances (pc : Nat) {label : Label} (h : ∃ i, LastPlace insns label i) :
    Balances (fun _ => True) (bytesOfTarget l pc label) :=
  (Layout.offsetOf_balances hl h).bind fun _ _ _ => trivial

theorem bytesOfInsn_balances (pc : Nat) (wide : Bool) {insn : Insn}
    (h : ∀ label ∈ insn.targets, ∃ i, LastPlace insns label i) :
    Balances (fun _ => True) (bytesOfInsn pool l pc wide insn) := by
  cases insn with
  | method op index =>
    change Balances _ (bytesOfMethod pool op index)
    unfold bytesOfMethod
    split
    · exact (Balances.format _).bind fun _ _ _ => (Balances.format _).bind fun _ _ _ => trivial
    · trivial
  | jump op target =>
    refine (Layout.offsetOf_balances hl (h target (List.mem_singleton_self _))).bind fun there _ _ => ?_
    unfold bytesOfJump
    split
    · trivial
    · split
      · trivial
      · split
        · trivial
        · exact id
  | tableSwitch fallback low targets =>
    refine (bytesOfTarget_balances hl pc (h _ (by simp [Insn.targets]))).bind fun _ _ _ => ?_
    refine (Balances.mapM fun t ht => ?_).bind fun _ _ _ => trivial
    exact bytesOfTarget_balances hl pc (h t (by simp [Insn.targets, ht]))
  | lookupSwitch fallback pairs =>
    refine (bytesOfTarget_balances hl pc (h _ (by simp [Insn.targets]))).bind fun _ _ _ => ?_
    refine (Balances.mapM fun x hx => ?_).bind fun _ _ _ => trivial
    have hmem : x ∈ pairs := (List.mergeSort_perm pairs _).mem_iff.1 hx
    refine (bytesOfTarget_balances hl pc (h x.2 ?_)).bind fun _ _ _ => trivial
    exact List.mem_append_left _ (List.mem_map_of_mem hmem)
  | int op value =>
    change Balances _ (if op = Op.sipush then _ else _)
    split <;> trivial
  | _ => trivial

omit hl in
/-- A range that covers something that takes bytes is not empty. -/
theorem exceptionEntry_balances (hs : l.Settled pool insns) {t : TryCatch} {i : Nat} {insn : Insn}
    (hinsn : insns[i]? = some insn) (hreal : insn.isPseudo = false) (hcovers : t.Covers insns i)
    (hhandler : ∃ i, LastPlace insns t.handler i) :
    Balances (fun _ => True) (exceptionEntry l t) := by
  obtain ⟨x, y, hx, hy, hxi, hiy⟩ := hcovers
  obtain ⟨start, hstart, hostart⟩ := hs.fits.offsetOf hx
  obtain ⟨stop, hstop, hostop⟩ := hs.fits.offsetOf hy
  rw [hs.offset_eq hx.lt, Option.some.injEq] at hstart
  rw [hs.offset_eq hy.lt, Option.some.injEq] at hstop
  have hlt : start < stop := by
    rw [← hstart, ← hstop]
    exact Nat.lt_of_le_of_lt (hs.offsetAt_mono hxi (Nat.le_of_lt (List.getElem?_eq_some_iff.1 hinsn).1))
      (hs.offsetAt_lt hinsn hreal hiy (Nat.le_of_lt hy.lt))
  unfold exceptionEntry
  rw [hostart, hostop]
  change Balances _ (if stop ≤ start then _ else _)
  rw [if_neg (Nat.not_le_of_lt hlt)]
  exact (Layout.offsetOf_balances hs.fits hhandler).bind fun _ _ _ => trivial

end Encode

/-- If a balanced body is not encoded, its instructions or its size are at fault. -/
theorem encode_balanced {b : Body} (hb : b.Balanced pool) : Balances (fun _ => True) (encode b pool) := by
  have hlayout : Balances (fun _ => True) (Layout.ofInsns pool b.insns) :=
    Layout.settle_balances hb.placed (List.length_map _)
  refine hlayout.bind fun l hl _ => ?_
  have hs := Layout.ofInsns_settled hl
  split
  · exact id
  have hparts : Balances (fun _ => True) (((b.insns.zip l.offsets).zip l.widths).mapM fun x =>
      Encode.bytesOfInsn pool l x.1.2 x.2 x.1.1) := by
    refine Balances.mapM fun x hx => ?_
    have hinsn := (List.of_mem_zip (List.of_mem_zip hx).1).1
    exact Encode.bytesOfInsn_balances hs.fits _ _ (hb.placed _ hinsn)
  refine hparts.bind fun _ _ _ => ?_
  refine (Balances.mapM fun t ht => ?_).bind fun _ _ _ => trivial
  obtain ⟨⟨i, insn, hinsn, hreal, hcovers⟩, hhandler⟩ := hb.ranges t ht
  exact Encode.exceptionEntry_balances hs hinsn hreal hcovers hhandler

end Encoding

end Interpose
