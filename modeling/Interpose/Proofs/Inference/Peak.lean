import Interpose.Proofs.Inference.Height
/-!
# Room for operands

Type inference also answers how many slots the operand stack has at most. It looks at the stack behind
every instruction that has pushed something, so it counts whatever instructions put there. What an
exception puts there is not counted: the caught object stands on the stack of a handler without having
been pushed.

* `execute_crests`: an instruction that makes the stack higher has been counted.
* `maxStack_covers_iff`: there is room for all operands on every path, unless the answer is that none is
  needed and an exception can be caught.
-/

namespace Interpose

/-- So many slots are on the operand stack at some moment of an instruction: in front of it, or when it
has put some of what it pushes there. -/
inductive OnStack (pool : Pool) (b : Body) (i : Nat) : Nat → Prop
  | before {height} : ControlPath pool b i height → OnStack pool b i height
  | pushing {height insn k} {e : SlotEffect} : ControlPath pool b i height → b.insns[i]? = some insn →
    insn.effect pool = some e → k ≤ e.pushed → OnStack pool b i (height - e.taken + k)

/-- Control can reach an instruction that may throw into a handler. -/
def Body.CanCatch (pool : Pool) (b : Body) : Prop :=
  ∃ i height insn, ControlPath pool b i height ∧ b.insns[i]? = some insn ∧ insn.isPseudo = false ∧
    ∃ t ∈ b.tryCatch, ∃ start stop, LastPlace b.insns t.start start ∧ LastPlace b.insns t.stop stop ∧
      start ≤ i ∧ i < stop

/-! ## What is counted -/

/-- The stack of the second machine is not higher than that of the first, or has been counted. -/
def Machine.Crests (m m' : Machine) : Prop :=
  m'.stack.length ≤ m.stack.length ∨ m'.stack.length ≤ m'.peak

namespace Machine

variable {m n m' : Machine} {i : Nat}

theorem Crests.of_le (h : m'.stack.length ≤ m.stack.length) : m.Crests m' := .inl h

theorem crests_pushSlots (m n : Machine) (vs : List VType) : m.Crests (n.pushSlots vs) :=
  .inr (Nat.le_max_right _ _)

theorem crests_push (m n : Machine) (v : VType) : m.Crests (n.push v) :=
  crests_pushSlots m n _

theorem crests_pushJava (h : n.stack.length ≤ m.stack.length) (t : JavaType) :
    m.Crests (n.pushJava t) := by
  unfold pushJava
  split
  · exact .of_le h
  · exact crests_push m n _

theorem crests_pushOption (h : n.stack.length ≤ m.stack.length) (v : Option VType) :
    m.Crests (n.pushOption v) := by
  cases v with
  | none => exact .of_le h
  | some v => exact crests_push m n v

theorem dropSlots_le {k : Nat} (h : m.dropSlots i k = .ok n) : n.stack.length ≤ m.stack.length := by
  have := (height_dropSlots h).2
  omega

theorem popReference_le {v : VType} (h : m.popReference i = .ok (v, n)) :
    n.stack.length ≤ m.stack.length := by
  have := (height_popReference h).2
  omega

theorem crests_simple {op : Opcode} (h : m.simple i op = .ok m') : m.Crests m' := by
  unfold simple at h
  cases he : simpleEffect op with
  | none =>
    rw [he] at h
    cases h
  | some e =>
    rw [he] at h
    cases e with
    | slots taken pushed =>
      obtain ⟨n, hd, h⟩ := bind_eq_ok.1 h
      cases h
      exact crests_pushOption (dropSlots_le hd) _
    | reference pushed =>
      obtain ⟨⟨v, n⟩, hp, h⟩ := bind_eq_ok.1 h
      cases h
      exact crests_pushOption (popReference_le hp) _
    | element type =>
      obtain ⟨⟨v, n⟩, -, h⟩ := bind_eq_ok.1 h
      obtain ⟨⟨array, n'⟩, -, h⟩ := bind_eq_ok.1 h
      cases h
      exact crests_push _ _ _
    | copy copied below =>
      obtain ⟨⟨vs, n⟩, -, h⟩ := bind_eq_ok.1 h
      cases h
      exact crests_pushSlots _ _ _
    | swap =>
      obtain ⟨⟨vs, n⟩, -, h⟩ := bind_eq_ok.1 h
      cases h
      exact crests_pushSlots _ _ _

theorem crests_load {op : Opcode} {slot : Nat} (h : m.load i op slot = .ok m') : m.Crests m' := by
  unfold load at h
  split at h
  · cases h
  · split_ifs at h <;> cases h <;> exact crests_push _ _ _

end Machine

open Machine in
/-- Whatever an instruction adds to the stack is counted. -/
theorem execute_crests {pool : Pool} {owner : String} {i : Nat} {insn : Insn} {m m' : Machine}
    (h : execute pool owner i insn m = .ok m') : m.Crests m' := by
  cases insn with
  | label _ | line _ =>
    cases h
    exact .of_le (Nat.le_refl _)
  | simple op => exact crests_simple h
  | int op value =>
    simp only [execute] at h
    split at h
    · obtain ⟨⟨v, n⟩, -, h⟩ := bind_eq_ok.1 h
      split at h
      · cases h
        exact crests_push _ _ _
      · cases h
    · cases h
      exact crests_push _ _ _
  | var op slot =>
    simp only [execute] at h
    split at h
    · exact crests_load h
    · rename_i hop
      have := (shifts_store hop h).2
      exact .of_le (by simp only at this; omega)
  | iinc slot delta =>
    simp only [execute] at h
    split at h
    · cases h
      exact .of_le (Nat.le_refl _)
    · cases h
  | type op index =>
    obtain ⟨name, -, h⟩ := bind_eq_ok.1 h
    split at h
    · cases h
      exact crests_push _ _ _
    · split at h
      all_goals
        obtain ⟨⟨v, n⟩, -, h⟩ := bind_eq_ok.1 h
        cases h
        exact crests_push _ _ _
  | field op index =>
    obtain ⟨ref, -, h⟩ := bind_eq_ok.1 h
    obtain ⟨type, -, h⟩ := bind_eq_ok.1 h
    split at h
    · cases h
      exact crests_pushJava (Nat.le_refl _) _
    split at h
    · exact .of_le (dropSlots_le h)
    split at h
    · obtain ⟨⟨v, n⟩, hp, h⟩ := bind_eq_ok.1 h
      cases h
      exact crests_pushJava (popReference_le hp) _
    · obtain ⟨n, hd, h⟩ := bind_eq_ok.1 h
      obtain ⟨⟨v, n'⟩, hp, h⟩ := bind_eq_ok.1 h
      cases h
      exact .of_le (Nat.le_trans (popReference_le hp) (dropSlots_le hd))
  | method op index =>
    obtain ⟨ref, -, h⟩ := bind_eq_ok.1 h
    obtain ⟨d, -, h⟩ := bind_eq_ok.1 h
    obtain ⟨n, hn, h⟩ := bind_eq_ok.1 h
    split at h
    · cases h
      exact crests_pushJava (dropSlots_le hn) _
    · obtain ⟨⟨receiver, n'⟩, hp, h⟩ := bind_eq_ok.1 h
      cases h
      have popped := Nat.le_trans (popReference_le hp) (dropSlots_le hn)
      split
      · exact crests_pushJava (by rwa [height_construct]) _
      · exact crests_pushJava popped _
  | dynamic index =>
    obtain ⟨d, -, h⟩ := bind_eq_ok.1 h
    obtain ⟨n, hn, h⟩ := bind_eq_ok.1 h
    cases h
    exact crests_pushJava (dropSlots_le hn) _
  | ldc index =>
    obtain ⟨v, -, h⟩ := bind_eq_ok.1 h
    cases h
    exact crests_push _ _ _
  | jump op l =>
    simp only [execute] at h
    split at h
    · cases h
      exact .of_le (Nat.le_refl _)
    split at h
    · exact .of_le (dropSlots_le h)
    · exact .of_le (dropSlots_le h)
  | tableSwitch _ _ _ | lookupSwitch _ _ => exact .of_le (dropSlots_le h)
  | multiNewArray index dims =>
    obtain ⟨n, -, h⟩ := bind_eq_ok.1 h
    obtain ⟨name, -, h⟩ := bind_eq_ok.1 h
    cases h
    exact crests_push _ _ _

/-! ## Room on every path -/

namespace Analysis

section Covered

variable {b : Body} {context : MethodContext} {pool : Pool} {h : Hierarchy} {a : Analysis}
  (ha : analyze b context pool h = .ok a)
include ha

/-- The answer is at least what was counted behind every instruction that has a frame. -/
theorem peak_le_maxStack {i : Nat} {f : Frame} {insn : Insn} (hf : a.frame i = some f)
    (hinsn : b.insns[i]? = some insn) : ∃ after,
    execute pool context.owner i insn { f with peak := 0 } = .ok after ∧
      after.peak ≤ a.maxStack.toNat := by
  obtain ⟨m, p, hm, -, -, ⟨limit, hrun⟩, hframes, -, hmax⟩ := analyze_eq_ok ha
  have hof := of_ofBody hm
  have hd := (Progress.run_settled m.ascends_height.takes hof.inRange Progress.start_coherent
    Progress.start_settled hrun).1
  have hf : p.frame i = some f := by
    unfold Progress.frame
    rw [← hframes]
    exact hf
  obtain ⟨ds, after, hds, hpeak, -⟩ := hd i f insn hf (by rw [hof.insn, hinsn])
  obtain ⟨hexecute, -⟩ := Method.deliveries_eq_ok.1 hds
  rw [hof.pool, hof.context] at hexecute
  exact ⟨after, hexecute, by rwa [hmax]⟩

/-- What an instruction makes of the stack fits where its operands fit and the answer does. -/
theorem height_behind_le {bound : Nat} (hbound : a.maxStack.toNat ≤ bound) {i height : Nat}
    (hi : ControlPath pool b i height) (hle : height ≤ bound) {insn : Insn} {e : SlotEffect}
    (hinsn : b.insns[i]? = some insn) (heff : insn.effect pool = some e) :
    height - e.taken + e.pushed ≤ bound := by
  obtain ⟨insn', f, -, hinsn', hf, hheight, -⟩ := path_counted ha hi
  rw [hinsn] at hinsn'
  cases hinsn'
  obtain ⟨after, hexecute, hpeak⟩ := peak_le_maxStack ha hf hinsn
  obtain ⟨e', heff', -, hafter⟩ := execute_height hexecute
  rw [heff] at heff'
  cases heff'
  have hafter : after.stack.length = f.stack.length - e.taken + e.pushed := hafter
  rw [← hheight, ← hafter]
  rcases execute_crests hexecute with hcrest | hcrest
  · have hcrest : after.stack.length ≤ f.stack.length := hcrest
    omega
  · omega

/-- Every height along a path is within any bound that leaves room for what is counted, and for the
caught object if there can be one. -/
theorem onStack_le {bound : Nat} (hbound : a.maxStack.toNat ≤ bound)
    (hcatch : b.CanCatch pool → 1 ≤ bound) {i n : Nat} (hn : OnStack pool b i n) : n ≤ bound := by
  have path : ∀ {i height}, ControlPath pool b i height → height ≤ bound := by
    intro i height hi
    induction hi with
    | start => exact Nat.zero_le _
    | next hi hinsn heff _ ih => exact height_behind_le ha hbound hi ih hinsn heff
    | jump hi hinsn heff _ _ ih => exact height_behind_le ha hbound hi ih hinsn heff
    | thrown hi hinsn hreal ht hstart hstop hfrom hto _ _ =>
      exact hcatch ⟨_, _, _, hi, hinsn, hreal, _, ht, _, _, hstart, hstop, hfrom, hto⟩
  cases hn with
  | before hi => exact path hi
  | pushing hi hinsn heff hk =>
    have := height_behind_le ha hbound hi (path hi) hinsn heff
    omega

/-- There is room for all operands at every moment of every path, if the answer is not that no operand
stack is needed or if no exception can be caught; and only then. In any case at most the caught object
has no room. -/
theorem maxStack_covers_iff :
    ((∀ i n, OnStack pool b i n → n ≤ a.maxStack.toNat) ↔
      0 < a.maxStack.toNat ∨ ¬ b.CanCatch pool) ∧
    ∀ i n, OnStack pool b i n → n ≤ max 1 a.maxStack.toNat := by
  refine ⟨⟨fun hroom => ?_, fun hcond i n hn => ?_⟩, fun i n hn => ?_⟩
  · by_contra hno
    obtain ⟨hzero, hcatch⟩ := not_or.1 hno
    obtain ⟨i, height, insn, hi, hinsn, hreal, t, ht, start, stop, hstart, hstop, hfrom, hto⟩ :=
      not_not.1 hcatch
    obtain ⟨m, -, hm, -⟩ := analyze_eq_ok ha
    obtain ⟨g, -, -, -, hhandler, -⟩ := (mem_forall₂ (of_ofBody hm).guards).1 t ht
    have := hroom _ 1 (.before (.thrown hi hinsn hreal ht hstart hstop hfrom hto hhandler))
    omega
  · exact onStack_le ha (Nat.le_refl _) (fun hcatch => by
      rcases hcond with hpos | hno
      · exact hpos
      · exact absurd hcatch hno) hn
  · exact onStack_le ha (Nat.le_max_right _ _) (fun _ => Nat.le_max_left _ _) hn

end Covered

theorem maxStack_covers_guardedLoop :
    ∃ a, analyze guardedLoop ⟨"A", Access.staticFlag, "f", ⟨[], .void⟩⟩ .empty .flat = .ok a ∧
      a.maxStack = 2 ∧ guardedLoop.CanCatch .empty ∧
      ∀ i n, OnStack .empty guardedLoop i n → n ≤ 2 := by
  have hok : (analyze guardedLoop ⟨"A", Access.staticFlag, "f", ⟨[], .void⟩⟩ .empty
      .flat).toOption.any (·.maxStack = 2) := by decide +kernel
  obtain ⟨a, ha, hmax⟩ := any_toOption.1 hok
  have hmax : a.maxStack = 2 := by simpa using hmax
  have hcovers := (maxStack_covers_iff ha).1.2
  rw [hmax] at hcovers
  have first : ControlPath .empty guardedLoop 1 0 := .next (e := ⟨0, 0⟩) .start rfl rfl rfl
  exact ⟨a, ha, hmax, ⟨1, 0, _, first, rfl, rfl, _, List.mem_singleton_self _, 0, 4,
    labelPositions_eq_some.1 (by decide +kernel), labelPositions_eq_some.1 (by decide +kernel),
    by decide, by decide⟩, hcovers (.inl (by decide))⟩

/-- A method that returns at once, in a range whose handler throws again what it has caught. -/
def bareHandler : Body :=
  { Body.ofInsns [.label 0, .simple Op.returnVoid, .label 1, .label 2, .simple Op.athrow] with
    tryCatch := [⟨0, 1, 2, 0⟩] }

/-- The answer for a method that pushes nothing is 0, though its handler finds the caught object. -/
theorem maxStack_misses_caught :
    ∃ a, analyze bareHandler ⟨"A", Access.staticFlag, "f", ⟨[], .void⟩⟩ .empty .flat = .ok a ∧
      OnStack .empty bareHandler 3 1 ∧ a.maxStack.toNat = 0 := by
  have hok : (analyze bareHandler ⟨"A", Access.staticFlag, "f", ⟨[], .void⟩⟩ .empty
      .flat).toOption.any (·.maxStack = 0) := by decide +kernel
  obtain ⟨a, ha, hmax⟩ := any_toOption.1 hok
  have hmax : a.maxStack = 0 := by simpa using hmax
  have first : ControlPath .empty bareHandler 1 0 := .next (e := ⟨0, 0⟩) .start rfl rfl rfl
  have placed : ∀ l i, (labelPositions bareHandler.insns)[l]? = some i →
      LastPlace bareHandler.insns l i := fun l i hl => labelPositions_eq_some.1 hl
  refine ⟨a, ha, .before (.thrown first rfl rfl (List.mem_singleton_self _)
    (placed 0 0 (by decide +kernel)) (placed 1 2 (by decide +kernel)) (by decide) (by decide)
    (placed 2 3 (by decide +kernel))), ?_⟩
  rw [hmax]
  rfl

end Analysis

end Interpose
