import Interpose.Proofs.Code.Decode
import Interpose.Proofs.Code.Pruning
import Interpose.Weave.Method
/-!
# Unreached instructions

What an instruction is that control does not reach makes no difference to the code that is assembled
(`assemble_unreached`): neither to its frames nor to whether there is any. It only has to take bytes
where the other one does, and its jumps have to end at labels that are placed. To weaving it does make a
difference, which looks up the constant of every invocation before it knows what control reaches
(`Weave.method_refuses_unreached`).
-/

namespace Interpose

open Analysis

/-- A body whose instructions are those of another one where an analysis of that one has frames. Marks
and tables are the same everywhere. -/
structure Body.MatchesLive (b' b : Body) (a : Analysis) : Prop where
  rest : b' = { b with insns := b'.insns }
  pseudo : b'.insns.map Insn.isPseudo = b.insns.map Insn.isPseudo
  insn : ∀ i insn, b.insns[i]? = some insn → insn.isPseudo = true ∨ (∃ f, a.frame i = some f) →
    b'.insns[i]? = some insn
  placed : ∀ insn ∈ b'.insns, ∀ l ∈ insn.targets, ∃ i, LastPlace b'.insns l i

namespace Body.MatchesLive

variable {b b' : Body} {a : Analysis} (hb : b'.MatchesLive b a)
include hb

theorem length : b'.insns.length = b.insns.length := by
  simpa using congrArg List.length hb.pseudo

/-- The two instructions with one number. -/
theorem insn_of {i : Nat} {insn' : Insn} (hi : b'.insns[i]? = some insn') :
    ∃ insn, b.insns[i]? = some insn ∧ insn'.isPseudo = insn.isPseudo ∧
      (insn.isPseudo = true ∨ (∃ f, a.frame i = some f) → insn' = insn) := by
  have hlt := (List.getElem?_eq_some_iff.1 hi).1
  rw [hb.length] at hlt
  have hat : b.insns[i]? = some b.insns[i] := List.getElem?_eq_getElem hlt
  refine ⟨_, hat, ?_, fun h => ?_⟩
  · have := congrArg (·[i]?) hb.pseudo
    simpa only [List.getElem?_map, hi, hat, Option.map_some, Option.some.injEq] using this
  · exact Option.some.inj (hi.symm.trans (hb.insn i _ hat h))

theorem labelPositions : labelPositions b'.insns = labelPositions b.insns := by
  refine labelPositions_congr (List.ext_getElem? fun i => ?_)
  rw [List.getElem?_map, List.getElem?_map]
  cases hi : b'.insns[i]? with
  | none =>
    rw [List.getElem?_eq_none_iff, hb.length, ← List.getElem?_eq_none_iff] at hi
    rw [hi]
  | some insn' =>
    obtain ⟨insn, hat, hpseudo, hsame⟩ := hb.insn_of hi
    rw [hat]
    cases hp : insn.isPseudo with
    | true => rw [hsame (.inl hp)]
    | false =>
      -- what takes bytes places no label
      have unplaced : ∀ x : Insn, x.isPseudo = false → x.placed = none := fun x hx => by
        cases x <;> first | rfl | cases hx
      rw [Option.map_some, Option.map_some, unplaced insn hp, unplaced insn' (hpseudo.trans hp)]

theorem anyReal (start stop : Nat) :
    anyReal b'.insns.toArray start stop = anyReal b.insns.toArray start stop := by
  have real : ∀ (insns : List Insn) (i : Nat), (∃ insn, insns.toArray[i]? = some insn ∧
      insn.isPseudo = false) ↔ (insns.map Insn.isPseudo)[i]? = some false := by
    intro insns i
    rw [List.getElem?_toArray, List.getElem?_map, Option.map_eq_some_iff]
  rw [Bool.eq_iff_iff, anyReal_eq_true, anyReal_eq_true]
  simp only [exists_and_left, real, hb.pseudo]

theorem ofBody {context : MethodContext} {pool : Pool} {h : Hierarchy} {m : Method}
    (hm : Method.ofBody b context pool h = .ok m) :
    Method.ofBody b' context pool h = .ok { m with code := b'.insns.toArray } := by
  obtain ⟨hg, e⟩ := ofBody_eq_ok.1 hm
  rw [hb.rest]
  refine ofBody_eq_ok.2 ⟨hg.imp fun t g hg => ?_, ?_⟩
  · rw [guard_eq_ok] at hg ⊢
    rw [hb.labelPositions, hb.anyReal]
    exact hg
  · rw [e]
    simp only [hb.labelPositions]
    rfl

section Analyzed

variable {context : MethodContext} {pool : Pool} {h : Hierarchy}
  (ha : analyze b context pool h = .ok a)
include ha

theorem mirrors {m : Method} (hm : Method.ofBody b context pool h = .ok m) :
    m.Mirrors { m with code := b'.insns.toArray } (Equiv.refl Nat) where
  pool := rfl
  context := rfl
  hierarchy := rfl
  entry := rfl
  insn k hr := by
    have hlt := reached_lt hm ha hr
    have hat : b.insns[k]? = some b.insns[k] := List.getElem?_eq_getElem hlt
    rw [Equiv.refl_apply, (of_ofBody hm).insn, List.getElem?_toArray, hat]
    exact hb.insn k _ hat (.inr ((analyze_reached hm ha).2 hr))
  handlers k insn _ _ _ := (List.map_id _).symm
  label _ _ _ _ _ _ _ hpos := hpos
  next _ _ _ _ _ _ := rfl
  hints _ _ := rfl

/-- The analysis finds the same. -/
theorem analyzed : ∃ a', analyze b' context pool h = .ok a' ∧ a'.frames = a.frames ∧
    a'.maxStack = a.maxStack ∧ a'.maxLocals = a.maxLocals := by
  obtain ⟨m, -, hm, -⟩ := analyze_eq_ok ha
  have hn := hb.ofBody hm
  have placed : ∀ insn ∈ b'.insns, ∀ l ∈ insn.targets, ∃ i : Nat, m.positions[l]? = some i := by
    intro insn hinsn l hl
    obtain ⟨i, hi⟩ := hb.placed insn hinsn l hl
    exact ⟨i, ((of_ofBody hn).positions l i).2 hi⟩
  obtain ⟨targets, ht⟩ := jumpTargets_ok placed m.guards
  have hlocals : b'.maxLocals = b.maxLocals := by rw [hb.rest]
  obtain ⟨a', ha', -, hstack, hloc, hframe⟩ :=
    analyze_mirrors hm ha hn (hb.mirrors ha hm) hlocals ht
  refine ⟨a', ha', ?_, hstack, hloc⟩
  have hsize : a'.frames.size = a.frames.size := by
    rw [analyze_size ha', analyze_size ha, hb.length]
  refine Array.ext hsize fun i hi hi' => ?_
  have := hframe i
  rw [show Frame.renumber (Equiv.refl Nat) = id from funext Frame.renumber_id, Option.map_id] at this
  simpa only [Analysis.frame, Equiv.refl_apply, Array.getElem?_eq_getElem hi,
    Array.getElem?_eq_getElem hi', Option.join_some, id] using this.symm

end Analyzed

end Body.MatchesLive

/-- Instructions without frames are left out, whatever they are. -/
theorem keepLive_congr {xs ys : List (Insn × Option Frame)}
    (h : List.Forall₂ (fun x y => x.2 = y.2 ∧ x.1.isPseudo = y.1.isPseudo ∧
      (x.1.isPseudo = true ∨ x.2.isSome → x.1 = y.1)) xs ys) : keepLive xs = keepLive ys := by
  induction h with
  | nil => rfl
  | @cons x y xs ys hxy _ ih =>
    obtain ⟨insn, frame⟩ := x
    obtain ⟨insn', frame'⟩ := y
    obtain ⟨rfl, hpseudo, hsame⟩ := hxy
    by_cases hlive : insn.isPseudo = true ∨ frame.isSome
    · rw [keepLive_cons, keepLive_cons, ih, show insn = insn' from hsame hlive]
    · obtain ⟨hreal, hnone⟩ := not_or.1 hlive
      rw [Bool.not_eq_true] at hreal
      rw [Option.not_isSome_iff_eq_none] at hnone
      subst hnone
      have hreal' : insn'.isPseudo = false := hpseudo.symm.trans hreal
      have gone : ∀ (z : Insn) (leads : Bool), z.isPseudo = false → z.stays none leads = false := by
        intro z leads hz
        cases z <;> first | rfl | cases hz
      rw [keepLive_cons, keepLive_cons, ih, hreal, hreal', gone insn _ hreal, gone insn' _ hreal']
      rfl

namespace Body.MatchesLive

variable {b b' : Body} {a : Analysis} (hb : b'.MatchesLive b a) {context : MethodContext} {pool : Pool}
  {h : Hierarchy} (ha : analyze b context pool h = .ok a)
include hb ha

/-- A body without dead code has nothing in which another one could differ. -/
theorem eq_of_no_deadCode (hdead : a.deadCode b = []) : b' = b := by
  have hall := (deadCode_eq_nil (analyze_size ha)).1 hdead
  have hinsns : b'.insns = b.insns := by
    refine List.ext_getElem? fun i => ?_
    cases hi : b.insns[i]? with
    | none => rw [List.getElem?_eq_none_iff, hb.length, ← List.getElem?_eq_none_iff, hi]
    | some insn =>
      cases hp : insn.isPseudo with
      | true => exact hb.insn i insn hi (.inl hp)
      | false => exact hb.insn i insn hi (.inr (hall i insn hi hp))
  rw [hb.rest, hinsns]

theorem deadCode_ne_nil {a' : Analysis} (ha' : analyze b' context pool h = .ok a')
    (hframes : a'.frames = a.frames) (hdead : a.deadCode b ≠ []) : a'.deadCode b' ≠ [] := by
  rw [ne_eq, deadCode_eq_nil (analyze_size ha)] at hdead
  rw [ne_eq, deadCode_eq_nil (analyze_size ha')]
  refine fun hall => hdead fun i insn hi hreal => ?_
  have hlt := (List.getElem?_eq_some_iff.1 hi).1
  rw [← hb.length] at hlt
  have hi' : b'.insns[i]? = some b'.insns[i] := List.getElem?_eq_getElem hlt
  obtain ⟨insn', hat, hpseudo, -⟩ := hb.insn_of hi'
  rw [hi] at hat
  cases hat
  have hframe : a'.frame i = a.frame i := by rw [Analysis.frame, Analysis.frame, hframes]
  rw [← hframe]
  exact hall i _ hi' (hpseudo.trans hreal)

/-- Without dead code the bodies are the same. -/
theorem withoutDeadCode {a' : Analysis} (hframes : a'.frames = a.frames) :
    withoutDeadCode b' a' = withoutDeadCode b a := by
  have hkept : keepLive (b'.insns.zip a'.frames.toList) = keepLive (b.insns.zip a.frames.toList) := by
    refine keepLive_congr (List.forall₂_iff_get.2 ⟨?_, fun i hi hi' => ?_⟩)
    · rw [List.length_zip, List.length_zip, hb.length, hframes]
    · have hlt : i < b.insns.length := by
        rw [List.length_zip] at hi'
        omega
      have hframe : i < a.frames.size := by rwa [analyze_size ha]
      obtain ⟨insn, hat, hpseudo, hsame⟩ := hb.insn_of (List.getElem?_eq_getElem (hb.length ▸ hlt))
      rw [List.getElem?_eq_getElem hlt] at hat
      cases hat
      simp only [List.get_eq_getElem, List.getElem_zip, hframes, Array.getElem_toList]
      refine ⟨trivial, hpseudo, fun hlive => hsame ?_⟩
      rw [hpseudo] at hlive
      refine hlive.imp_right fun hf => ?_
      rwa [← Option.isSome_iff_exists, Analysis.frame, Array.getElem?_eq_getElem hframe]
  unfold Interpose.withoutDeadCode
  rw [hkept, hb.rest]

/-- The same code is left. -/
theorem live : Assemble.live b' context pool h = Assemble.live b context pool h := by
  by_cases hdead : a.deadCode b = []
  · rw [hb.eq_of_no_deadCode ha hdead]
  · obtain ⟨a', ha', hframes, -, -⟩ := hb.analyzed ha
    have hdead' := hb.deadCode_ne_nil ha ha' hframes hdead
    rw [ne_eq, ← List.isEmpty_iff] at hdead'
    rw [← List.isEmpty_iff] at hdead
    unfold Assemble.live
    rw [ha, ha']
    simp only [bind, Except.bind, hdead, hdead', Bool.false_eq_true, if_false,
      hb.withoutDeadCode ha hframes]

end Body.MatchesLive

/-- The code that is assembled is the same, whatever the instructions are that control does not
reach. -/
theorem assemble_unreached {b b' : Body} {a : Analysis} {context : MethodContext} {pool : Pool}
    {h : Hierarchy} (ha : analyze b context pool h = .ok a) (hb : b'.MatchesLive b a)
    (major : UInt16) :
    (assemble b' context h major).run.run pool = (assemble b context h major).run.run pool := by
  unfold assemble
  rw [run_bind, run_bind]
  exact congrArg (fun r => (Assembly.ofExcept r >>= _).run.run pool) (hb.live ha)

/-- One instruction that is not reached may be another one. -/
theorem Body.MatchesLive.set {b : Body} {a : Analysis} {i : Nat} {insn insn' : Insn}
    (hi : b.insns[i]? = some insn) (hdead : a.frame i = none) (hreal : insn.isPseudo = false)
    (hreal' : insn'.isPseudo = false)
    (hplaced : ∀ x ∈ insn' :: b.insns, ∀ l ∈ x.targets, ∃ j, LastPlace b.insns l j) :
    ({ b with insns := b.insns.set i insn' } : Body).MatchesLive b a := by
  have hlt := (List.getElem?_eq_some_iff.1 hi).1
  have not_label (x : Insn) (hx : x.isPseudo = false) (l : Label) : x ≠ .label l := by
    rintro rfl
    cases hx
  have hset (j : Nat) : (b.insns.set i insn')[j]? = if i = j then some insn' else b.insns[j]? := by
    rw [List.getElem?_set]
    by_cases hij : i = j
    · rw [if_pos hij, if_pos hij, if_pos (hij ▸ hlt)]
    · rw [if_neg hij, if_neg hij]
  refine ⟨rfl, List.ext_getElem? fun j => ?_, fun j x hx hlive => ?_, fun x hx l hl => ?_⟩
  · rw [List.getElem?_map, List.getElem?_map, hset]
    by_cases hij : i = j
    · rw [if_pos hij, ← hij, hi, Option.map_some, Option.map_some, hreal, hreal']
    · rw [if_neg hij]
  · rw [hset, if_neg, hx]
    rintro rfl
    rw [hi] at hx
    cases hx
    rw [hreal, hdead] at hlive
    rcases hlive with h | ⟨f, h⟩ <;> cases h
  · obtain ⟨j, hj, hlast⟩ := hplaced x
      ((List.mem_or_eq_of_mem_set hx).elim (List.mem_cons_of_mem _) fun h => h ▸ List.mem_cons_self ..) l hl
    refine ⟨j, ?_, fun k hk => ?_⟩
    · rw [hset, if_neg, hj]
      rintro rfl
      rw [hi] at hj
      cases hj
      exact not_label _ hreal l rfl
    · rw [hset]
      by_cases hik : i = k
      · rw [if_pos hik]
        exact fun h => not_label _ hreal' l (Option.some.inj h)
      · rw [if_neg hik]
        exact hlast k hk

/-- An invocation without a constant that is jumped over. -/
def unresolvedJumpedOver : Body :=
  { jumpedOver with insns := jumpedOver.insns.set 2 (.method Op.invokestatic 0xFFFF) }

theorem assemble_unreached_unresolvedJumpedOver :
    ∃ a, analyze jumpedOver ⟨"A", Access.staticFlag, "f", ⟨[], .void⟩⟩ .empty .flat = .ok a ∧
      unresolvedJumpedOver.MatchesLive jumpedOver a ∧
      (assemble unresolvedJumpedOver ⟨"A", Access.staticFlag, "f", ⟨[], .void⟩⟩ .flat 49).run.run
          .empty =
        (assemble jumpedOver ⟨"A", Access.staticFlag, "f", ⟨[], .void⟩⟩ .flat 49).run.run .empty := by
  have hok : (analyze jumpedOver ⟨"A", Access.staticFlag, "f", ⟨[], .void⟩⟩ .empty
      .flat).toOption.any (fun a => (a.frame 2).isNone) := by decide +kernel
  obtain ⟨a, ha, hdead⟩ := any_toOption.1 hok
  rw [Option.isNone_iff_eq_none] at hdead
  have hmatches : unresolvedJumpedOver.MatchesLive jumpedOver a := by
    refine .set rfl hdead rfl rfl fun insn hinsn l hl => ?_
    have placed : ∀ insn ∈ Insn.method Op.invokestatic 0xFFFF :: jumpedOver.insns, ∀ l ∈ insn.targets,
        ((labelPositions jumpedOver.insns)[l]?).isSome := by decide +kernel
    obtain ⟨i, hi⟩ := Option.isSome_iff_exists.1 (placed insn hinsn l hl)
    exact ⟨i, labelPositions_eq_some.1 hi⟩
  exact ⟨a, ha, hmatches, assemble_unreached ha hmatches 49⟩

/-! ## Weaving -/

namespace Weave

/-- A method that returns at once, with three bytes of code behind that which control does not reach. -/
def trailing (x y z : UInt8) : CodeAttribute where
  maxStack := 1
  maxLocals := 0
  code := [0xb1, x, y, z, 0xb1]
  exceptions := []
  attributes := []

def trailingBody (insn : Insn) : Body where
  insns := [.simple Op.returnVoid, insn, .simple Op.returnVoid]
  maxStack := 1

def invocationReports : WeavePlan where
  space := "default"
  listener := 1
  loader := 1
  kinds := .ofList [.callBefore]
  className := "A"

/-- A method is woven whose code ends in a constant, and refused with an invocation in its place, though
control reaches neither. -/
theorem method_refuses_unreached :
    (trailing 0x11 0 0).Straight ∧ (trailing 0xb8 0xff 0xff).Straight ∧
      ∃ b b' a, decode (trailing 0x11 0 0) = .ok b ∧ decode (trailing 0xb8 0xff 0xff) = .ok b' ∧
        analyze b ⟨"A", Access.staticFlag, "f", ⟨[], .void⟩⟩ .empty .flat = .ok a ∧ b'.MatchesLive b a ∧
        (∃ c, ((method invocationReports ⟨"A", Access.staticFlag, "f", ⟨[], .void⟩⟩ .flat 49
          (trailing 0x11 0 0)).run.run .empty).1 = .ok c) ∧
        ((method invocationReports ⟨"A", Access.staticFlag, "f", ⟨[], .void⟩⟩ .flat 49
          (trailing 0xb8 0xff 0xff)).run.run .empty).1 =
            .error (.format (.invalidConstantPoolIndex 0xFFFF)) := by
  have hok : (analyze (trailingBody (.int Op.sipush 0)) ⟨"A", Access.staticFlag, "f", ⟨[], .void⟩⟩ .empty
      .flat).toOption.any (fun a => (a.frame 1).isNone) := by decide +kernel
  obtain ⟨a, ha, hdead⟩ := any_toOption.1 hok
  rw [Option.isNone_iff_eq_none] at hdead
  have hmatches : (trailingBody (.method Op.invokestatic 0xFFFF)).MatchesLive
      (trailingBody (.int Op.sipush 0)) a := by
    have untargeted : ∀ x ∈ Insn.method Op.invokestatic 0xFFFF :: (trailingBody (.int Op.sipush 0)).insns,
        x.targets = [] := by decide
    exact .set rfl hdead rfl rfl fun x hx l hl => by
      rw [untargeted x hx] at hl
      cases hl
  have hwoven : ((method invocationReports ⟨"A", Access.staticFlag, "f", ⟨[], .void⟩⟩ .flat 49
      (trailing 0x11 0 0)).run.run .empty).1.toOption.any (fun _ => true) := by decide +kernel
  obtain ⟨c, hc, -⟩ := any_toOption.1 hwoven
  exact ⟨by decide +kernel, by decide +kernel, trailingBody (.int Op.sipush 0),
    trailingBody (.method Op.invokestatic 0xFFFF), a, rfl, rfl, ha, hmatches, ⟨c, hc⟩, rfl⟩

end Weave

end Interpose
