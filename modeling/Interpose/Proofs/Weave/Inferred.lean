import Interpose.Proofs.Execution.Passing
import Interpose.Proofs.Inference.Facts
import Interpose.Proofs.Weave.Live
import Interpose.Proofs.Weave.Verdict
/-!
# What the inference knows behind the report of the start

Each template shows some fact about the frame it leaves (`Template.Shows`), and a run of templates proves
one behind it (`Template.Proves`). Where the templates stand in a body and their labels are their own
(`Body.Apart`), the facts hold of the frames that the inference ends with (`facts_of_analyze`), and what is
proved behind them is known of the frame there (`frame_behind`).

The report of the start keeps its array in a local variable and stores elements of it into the
parameters, so behind it these have the types they have in the initial frame
(`WeaveSite.startReport_proves`).
-/

namespace Interpose

/-! ## Templates -/

namespace Template

variable {lead : Label → Fact} {φ ψ χ : Fact} {x : Template} {xs ts ts' : List Template} {q : Pool}
  {i : Insn}

/-- The template stores nothing in a local variable and constructs no object. -/
def spares : Template → Bool
  | plain i => i.spares
  | method op _ => op ≠ Op.invokespecial
  | _ => true

theorem Settles.spares (h : x.Settles q i) : i.spares = x.spares := by cases h <;> rfl

/-- Executed on a frame of which a fact holds, the template leaves one of which another holds. -/
def Shows (x : Template) (φ ψ : Fact) : Prop :=
  ∀ (q : Pool) (i : Insn), x.Settles q i → ∀ (owner : String) (n : Nat) (f : Frame) (m : Machine),
    φ.Holds f → execute q owner n i { f with peak := 0 } = .ok m → ψ.Holds m.toFrame

theorem shows_nothing : x.Shows φ .nothing := fun _ _ _ _ _ _ _ _ _ => trivial

theorem shows_spared (hx : x.spares = true) (hφ : φ.OfLocals) : x.Shows φ φ := by
  intro q i hi owner n f m hf he
  obtain ⟨e, -, hexchanges⟩ := execute_exchanges (hi.spares.trans hx) he
  exact hφ _ _ hexchanges.locals hf

theorem Shows.beside (h : x.Shows φ ψ) (hx : x.spares = true) (hχ : χ.OfLocals) :
    x.Shows (χ.and φ) (χ.and ψ) :=
  fun _ _ hi _ _ _ _ hf he => ⟨shows_spared hx hχ _ _ hi _ _ _ _ hf.1 he, h _ _ hi _ _ _ _ hf.2 he⟩

/-- What lies below the slots that are exchanged stays there. -/
theorem shows_operand {e : SlotEffect} {n : Nat} {v : VType} (hx : x.spares = true)
    (he : ∀ q i, x.Settles q i → i.effect q = some e) (hn : e.taken ≤ n) :
    x.Shows (.operand n v) (.operand (n - e.taken + e.pushed) v) := by
  intro q i hi owner k f m hf hexecute
  obtain ⟨e', he', hexchanges⟩ := execute_exchanges (hi.spares.trans hx) hexecute
  rw [he q i hi] at he'
  cases he'
  exact (hexchanges.getElem? hn).trans hf

theorem shows_pushInt (k : Int32) (n : Nat) (v : VType) :
    (pushInt k).Shows (.operand n v) (.operand (n + 1) v) := by
  refine shows_operand (e := ⟨0, 1⟩) rfl (fun q i hi => ?_) (Nat.zero_le n)
  cases hi with
  | small h h' =>
    generalize k.toInt = m at h h'
    have : m = -1 ∨ m = 0 ∨ m = 1 ∨ m = 2 ∨ m = 3 ∨ m = 4 ∨ m = 5 := by omega
    rcases this with rfl | rfl | rfl | rfl | rfl | rfl | rfl <;> rfl
  | byte => rfl
  | short => rfl
  | integer h => simp [Insn.effect, Pool.loadedSlots, h]

/-- One template of several. Each label has a fact, which holds wherever a jump to it leaves and is enough
where it is placed. -/
structure Passes (lead : Label → Fact) (x : Template) (φ ψ : Fact) : Prop where
  next : x.Shows φ ψ
  jump : ∀ l ∈ x.leads, x.Shows φ (lead l)
  placed : ∀ l, x = .place l → ∀ f, (lead l).Holds f → φ.Holds f

theorem Passes.of_shows (h : x.Shows φ ψ) (hleads : x.leads = []) (hplaced : x.placed = none) :
    Passes lead x φ ψ := by
  refine ⟨h, fun l hl => ?_, fun l hl => ?_⟩
  · rw [hleads] at hl
    cases hl
  · subst hl
    cases hplaced

/-- Facts in front of the templates and behind the last, from one to another. -/
def Proves (lead : Label → Fact) (ts : List Template) (φ ψ : Fact) : Prop :=
  ∃ facts : Nat → Fact, facts 0 = φ ∧ facts ts.length = ψ ∧
    ∀ j x, ts[j]? = some x → Passes lead x (facts j) (facts (j + 1))

namespace Proves

theorem nil : Proves lead [] φ φ := by
  refine ⟨fun _ => φ, rfl, rfl, fun j x h => ?_⟩
  cases h

theorem cons (hx : Passes lead x φ ψ) (h : Proves lead ts ψ χ) : Proves lead (x :: ts) φ χ := by
  obtain ⟨facts, rfl, rfl, hfacts⟩ := h
  refine ⟨fun j => Nat.casesOn (motive := fun _ => Fact) j φ facts, rfl, rfl, fun j y hy => ?_⟩
  cases j with
  | zero =>
    cases hy
    exact hx
  | succ j => exact hfacts j y hy

theorem append (h : Proves lead ts φ ψ) (h' : Proves lead ts' ψ χ) : Proves lead (ts ++ ts') φ χ := by
  induction ts generalizing φ with
  | nil =>
    obtain ⟨facts, rfl, rfl, -⟩ := h
    exact h'
  | cons x ts ih =>
    obtain ⟨facts, rfl, rfl, hfacts⟩ := h
    refine cons (hfacts 0 x rfl) (ih ⟨fun j => facts (j + 1), rfl, rfl, fun j y hy => ?_⟩)
    exact hfacts (j + 1) y hy

/-- With one template more, the fact in front of it is still known. -/
theorem concat (h : Proves lead ts φ ψ) (hx : Passes lead x ψ χ) : ∃ facts : Nat → Fact, facts 0 = φ ∧
    facts ts.length = ψ ∧ ∀ j y, (ts ++ [x])[j]? = some y → Passes lead y (facts j) (facts (j + 1)) := by
  obtain ⟨facts, hfirst, hlast, hfacts⟩ := h
  refine ⟨fun j => if j ≤ ts.length then facts j else χ, (if_pos (Nat.zero_le _)).trans hfirst,
    (if_pos (Nat.le_refl _)).trans hlast, fun j y hy => ?_⟩
  show Passes lead y (if j ≤ ts.length then facts j else χ) (if j + 1 ≤ ts.length then facts (j + 1) else χ)
  by_cases hj : j < ts.length
  · rw [List.getElem?_append_left hj] at hy
    rw [if_pos (by omega), if_pos (by omega)]
    exact hfacts j y hy
  · have hlt := (List.getElem?_eq_some_iff.1 hy).1
    rw [List.length_append, List.length_singleton] at hlt
    obtain rfl : j = ts.length := by omega
    rw [List.getElem?_concat_length] at hy
    cases hy
    rw [if_pos (Nat.le_refl _), if_neg (by omega), hlast]
    exact hx

end Proves

/-- Templates that store and construct nothing and jump among themselves keep what is known of local
variables. -/
theorem Proves.of_spares (hts : ts.all spares = true) (henclosed : Enclosed ts) (hφ : φ.OfLocals)
    (hlead : ∀ l, .place l ∈ ts → lead l = φ) : Proves lead ts φ φ := by
  refine ⟨fun _ => φ, rfl, rfl, fun j x hx => ?_⟩
  have hmem := List.mem_of_getElem? hx
  have hshows : x.Shows φ φ := shows_spared (List.all_eq_true.1 hts x hmem) hφ
  refine ⟨hshows, fun l hl => ?_, fun l hl f hf => ?_⟩
  · rw [hlead l (henclosed x hmem l hl)]
    exact hshows
  · subst hl
    rwa [hlead l hmem] at hf

end Template

open Template

/-! ## Frames of the inference -/

/-- Code that stands in a body between other code has its labels for itself: nothing else leads there, and
no frame is declared there. -/
structure Body.Apart (b : Body) (before code after : List Insn) : Prop where
  jumps : ∀ insn ∈ before ++ after, ∀ l ∈ insn.targets, .label l ∉ code
  handlers : ∀ t ∈ b.tryCatch, .label t.handler ∉ code
  declared : ∀ d ∈ b.declaredFrames, .label d.1 ∉ code

/-- Facts hold in front of instructions, one after the other from a number on. -/
def Fact.AllAt (facts : Nat → Fact) (lo n i : Nat) (f : Frame) : Prop :=
  ∀ j < n, i = lo + j → (facts j).Holds f

section Analyzed

open Analysis

variable {b : Body} {before code after : List Insn} {context : MethodContext} {q : Pool} {h : Hierarchy}
  {m : Method} {a : Analysis} {lead : Label → Fact} {ts : List Template} {facts : Nat → Fact}

theorem Spliced.getElem?_of_lastPlace (hb : Spliced b before code after) {l : Label} {j : Nat}
    (hl : LastPlace b.insns l (before.length + j)) (hj : j < code.length) :
    code[j]? = some (.label l) := by
  rw [← hb.getElem? hj]
  exact hl.1

theorem Spliced.outside (hb : Spliced b before code after) {i : Nat} {insn : Insn}
    (hi : b.insns[i]? = some insn) (hout : ∀ j < code.length, i ≠ before.length + j) :
    insn ∈ before ++ after := by
  rw [hb.insns, List.getElem?_append] at hi
  split at hi
  · exact List.mem_append_left _ (List.mem_of_getElem? hi)
  · rw [List.getElem?_append_right (by have := hout (i - before.length); omega)] at hi
    exact List.mem_append_right _ (List.mem_of_getElem? hi)

variable (hb : Spliced b before code after) (hapart : b.Apart before code after)
  (hs : SettleAll q ts code)
include hb hapart hs

/-- What an instruction delivers to the code, inside of it, has the fact of the place. -/
theorem facts_delivered (hof : m.Of b context q h)
    (hfacts : ∀ j x, ts[j]? = some x → Passes lead x (facts j) (facts (j + 1))) {i : Nat} {f : Frame}
    (hf : Fact.AllAt facts before.length ts.length i f) {insn : Insn} (hinsn : m.code[i]? = some insn)
    {ds : List (Nat × Frame)} {out : Machine} (hds : m.deliveries i insn f = .ok (ds, out))
    {t : Nat × Frame} (ht : t ∈ ds) {j : Nat} (hj : j + 1 < ts.length)
    (hjt : t.1 = before.length + (j + 1)) : (facts (j + 1)).Holds t.2 := by
  have hlength := hs.length_eq
  rw [hof.insn] at hinsn
  obtain ⟨hexecute, jumps, next, hjumps, hnext, rfl⟩ := Method.deliveries_eq_ok.1 hds
  rw [hof.pool] at hexecute
  have passes : ∀ j < ts.length, i = before.length + j →
      ∃ x, x.Settles q insn ∧ Passes lead x (facts j) (facts (j + 1)) ∧ (facts j).Holds f := by
    intro j hj hi
    rw [hi, hb.getElem? (by omega)] at hinsn
    obtain ⟨x, hx, hsettles⟩ := forall₂_getElem? hs.flip hinsn
    exact ⟨x, hsettles, hfacts j x hx, hf j hj hi⟩
  rcases List.mem_append.1 ht with ht | ht
  · rcases List.mem_append.1 ht with ht | ht
    · obtain ⟨-, g, hg, -, rfl⟩ := Method.mem_toHandlers.1 ht
      obtain ⟨entry, hentry, -, -, hhandler, -⟩ := (mem_forall₂ hof.guards).2 g hg
      have hjt : g.handler.target = before.length + (j + 1) := hjt
      rw [hjt] at hhandler
      have hlabel := List.mem_of_getElem? (hb.getElem?_of_lastPlace hhandler (by omega))
      exact absurd hlabel (hapart.handlers entry hentry)
    · -- a jump from elsewhere does not lead here, and one from the code brings the fact of the label
      obtain ⟨l, hl, hplace, hframe⟩ := (mem_forall₂ hjumps).2 t ht
      rw [hjt, hof.positions] at hplace
      have hlabel := hb.getElem?_of_lastPlace hplace (by omega)
      by_cases hin : ∃ k < ts.length, i = before.length + k
      · obtain ⟨k, hk, hi⟩ := hin
        obtain ⟨x, hsettles, hx, hholds⟩ := passes k hk hi
        rw [hsettles.targets] at hl
        have hlead := hx.jump l hl q insn hsettles _ _ f out hholds hexecute
        obtain ⟨y, hy, hsettles⟩ := forall₂_getElem? hs.flip hlabel
        cases hsettles
        rw [hframe]
        exact (hfacts _ _ hy).placed l rfl _ hlead
      · have hout := hb.outside hinsn fun k hk hi => hin ⟨k, by omega, hi⟩
        exact absurd (List.mem_of_getElem? hlabel) (hapart.jumps insn hout l hl)
  · rcases hnext with ⟨-, rfl⟩ | ⟨-, -, rfl⟩
    · cases ht
    · cases List.mem_singleton.1 ht
      have hjt : i + 1 = before.length + (j + 1) := hjt
      obtain ⟨x, hsettles, hx, hholds⟩ := passes j (by omega) (by omega)
      exact hx.next q insn hsettles _ _ f out hholds hexecute

/-- A fact of a place inside the code stays when a frame with it arrives. -/
theorem facts_arrive (hm : Method.ofBody b context q h = .ok m) {j : Nat} (hj : j < ts.length)
    {e : Option Frame} {g k : Frame} (hg : (facts j).Holds g) (he : ∀ f, e = some f → (facts j).Holds f)
    (hk : m.arrive (before.length + j) e g = .ok k) : (facts j).Holds k := by
  have hlength := hs.length_eq
  have hundeclared : m.hints[before.length + j]? = none := by
    have hhints : m.hints = declaredFrames q context b (labelPositions b.insns) := by
      rw [(ofBody_eq_ok.1 hm).2]
    cases hhint : m.hints[before.length + j]? with
    | none => rfl
    | some hint =>
      rw [hhints] at hhint
      obtain ⟨d, hd, hplace⟩ := exists_declared hhint
      have hlabel := hb.getElem?_of_lastPlace (labelPositions_eq_some.1 hplace) (by omega)
      exact absurd (List.mem_of_getElem? hlabel) (hapart.declared d hd)
  rw [Method.arrive_eq, hundeclared] at hk
  obtain ⟨merged, hmerged, rfl⟩ := map_eq_ok.1 hk
  cases e with
  | none =>
    cases hmerged
    exact hg
  | some f => exact (facts j).merge (he f rfl) hg hmerged

/-- In a body with code of its own labels, the facts that its templates show hold of the frames there. -/
theorem facts_of_analyze (hm : Method.ofBody b context q h = .ok m) (ha : analyze b context q h = .ok a)
    (hfirst : ∀ f, (facts 0).Holds f)
    (hfacts : ∀ j x, ts[j]? = some x → Passes lead x (facts j) (facts (j + 1))) {j : Nat} {f : Frame}
    (hj : j < ts.length) (hf : a.frame (before.length + j) = some f) : (facts j).Holds f := by
  have keeps : m.Keeps (Fact.AllAt facts before.length ts.length)
      (Fact.AllAt facts before.length ts.length) := by
    refine ⟨fun hf hinsn hds t ht j hj hjt => ?_, fun hg he hk j hj hjt => ?_⟩
    · cases j with
      | zero => exact hfirst _
      | succ j => exact facts_delivered hb hapart hs (of_ofBody hm) hfacts hf hinsn hds ht hj hjt
    · subst hjt
      exact facts_arrive hb hapart hs hm hj (hg j hj rfl) (fun f hf => he f hf j hj rfl) hk
  obtain ⟨-, p, limit, hrun, hframe⟩ := run_of_analyze hm ha
  rw [hframe] at hf
  refine Progress.run_kept keeps (Progress.start_all fun j hj hjt => ?_) hrun _ f hf j hj rfl
  obtain rfl : j = 0 := by omega
  exact hfirst _

omit hb hapart hs in
/-- What is proved behind code is known of the frame at a label that is placed there, if nothing else leads
to that label. -/
theorem frame_behind {l : Label} (hb : Spliced b before (code ++ [.label l]) after)
    (hapart : b.Apart before (code ++ [.label l]) after) (hs : SettleAll q ts code)
    (ha : analyze b context q h = .ok a) {φ : Fact} (hφ : φ.OfLocals) (hl : lead l = φ)
    (hproves : Proves lead ts .nothing φ) {f : Frame} (hf : a.frame (before.length + code.length) = some f) :
    φ.Holds f := by
  obtain ⟨m, -, hm, -⟩ := analyze_eq_ok ha
  have hplace : Passes lead (.place l) φ φ := by
    refine ⟨shows_spared rfl hφ, List.forall_mem_nil _, fun l' hl' f hf => ?_⟩
    cases hl'
    rwa [hl] at hf
  obtain ⟨facts, hfirst, hlast, hfacts⟩ := hproves.concat hplace
  have hall : SettleAll q (ts ++ [Template.place l]) (code ++ [.label l]) :=
    List.rel_append hs (.cons (.plain _) .nil)
  rw [← hs.length_eq] at hf
  rw [← hlast]
  refine facts_of_analyze hb hapart hall hm ha (fun f => ?_) hfacts ?_ hf
  · rw [hfirst]
    trivial
  · rw [List.length_append]
    exact Nat.lt_succ_self ts.length

end Analyzed

/-! ## Parts of the report of the start -/

namespace Template

variable {lead : Label → Fact} {ts : List Template}

theorem shows_op {o : Opcode} {e : SlotEffect} {n : Nat} {v : VType} (he : Op.effect o = some e)
    (hn : e.taken ≤ n) : (op o).Shows (.operand n v) (.operand (n - e.taken + e.pushed) v) := by
  refine shows_operand rfl (fun q i hi => ?_) hn
  cases hi
  exact he

/-- A copy of the topmost slot lies above it. -/
theorem shows_dup (v : VType) : (op Op.dup).Shows (.operand 0 v) (.operand 1 v) := by
  intro q i hi owner n f m hf he
  obtain ⟨locals, stack⟩ := f
  cases hi
  cases stack with
  | nil => cases hf
  | cons u stack =>
    cases hf
    cases he
    rfl

end Template

def VType.objectArray : VType := .object (arrayNameOf objectClass)

open Template

variable {lead : Label → Fact} {χ : Fact}

theorem anewarray_shows {φ : Fact} :
    (Template.type Op.anewarray objectClass).Shows φ (.operand 0 .objectArray) := by
  intro q i hi owner n f m hf he
  cases hi with
  | type hc =>
    obtain ⟨name, hname, h⟩ := bind_eq_ok.1 he
    rw [hc] at hname
    cases hname
    obtain ⟨⟨v, k⟩, -, h⟩ := bind_eq_ok.1 h
    cases h
    rfl

theorem checkcast_shows {φ : Fact} (name : String) :
    (Template.type Op.checkcast name).Shows φ (.operand 0 (.object name)) := by
  intro q i hi owner n f m hf he
  cases hi with
  | type hc =>
    obtain ⟨name, hname, h⟩ := bind_eq_ok.1 he
    rw [hc] at hname
    cases hname
    obtain ⟨⟨v, k⟩, -, h⟩ := bind_eq_ok.1 h
    cases h
    rfl

/-- The first slot of a value lies deepest. -/
theorem getElem?_pushJava (m : Machine) {t : JavaType} (ht : t ≠ .void) :
    (m.pushJava t).stack[t.slots - 1]? = some (.ofJava t) := by
  cases t with
  | void => exact absurd rfl ht
  | _ => rfl

theorem invokevirtual_shows {φ : Fact} {r : MemberRef} {t : JavaType} (ht : t ≠ .void)
    (hr : MethodDescriptor.ofDescriptor r.descriptor = .ok ⟨[], t⟩) :
    (Template.method Op.invokevirtual r).Shows φ (.operand (t.slots - 1) (.ofJava t)) := by
  intro q i hi owner n f m hf he
  cases hi with
  | method hc =>
    obtain ⟨r', hr', h⟩ := bind_eq_ok.1 he
    rw [hc] at hr'
    cases hr'
    obtain ⟨d, hd, h⟩ := bind_eq_ok.1 h
    rw [hr] at hd
    cases hd
    obtain ⟨k, -, h⟩ := bind_eq_ok.1 h
    obtain ⟨⟨v, k'⟩, -, h⟩ := bind_eq_ok.1 h
    cases h
    exact getElem?_pushJava _ ht

namespace JavaType

variable {t : JavaType}

/-- Boxing a value leaves what lies below it. -/
theorem boxing_proves (ht : t ≠ void) (v : VType) :
    Proves lead t.boxing (.operand (2 + t.slots) v) (.operand 3 v) := by
  have wrap : ∀ {wrapper descriptor n}, (MethodDescriptor.ofDescriptor descriptor).toOption.any
      (·.effect = ⟨n, 1⟩) = true → Proves lead [.method Op.invokestatic ⟨wrapper, "valueOf", descriptor⟩]
        (.operand (2 + n) v) (.operand 3 v) := by
    intro wrapper descriptor n h
    obtain ⟨d, hd, heffect⟩ := any_toOption.1 h
    refine .cons (.of_shows ?_ rfl rfl) .nil
    have hshows := shows_operand (x := .method Op.invokestatic ⟨wrapper, "valueOf", descriptor⟩)
      (e := ⟨n, 1⟩) (n := 2 + n) (v := v) rfl (fun q i hi => ?_) (Nat.le_add_left n 2)
    · rwa [Nat.add_sub_cancel] at hshows
    · cases hi with
      | method hc =>
        simp only [Insn.effect, bind_toOption hc, bind_toOption hd, of_decide_eq_true heffect]
        rfl
  cases t with
  | void => exact absurd rfl ht
  | object name => exact .nil
  | array component => exact .nil
  | _ => exact wrap (by decide +kernel)

theorem load_shows (ht : t ≠ void) (slot : UInt16) (n : Nat) (v : VType) :
    (var t.loadOpcode slot).Shows (.operand n v) (.operand (n + t.slots) v) := by
  have hspares : (var t.loadOpcode slot).spares = true := by cases t <;> rfl
  have heffect : (Insn.var t.loadOpcode slot).effect = fun _ => some ⟨0, t.slots⟩ := by
    cases t with
    | void => exact absurd rfl ht
    | _ => rfl
  refine shows_operand (e := ⟨0, t.slots⟩) hspares (fun q i hi => ?_) (Nat.zero_le n)
  cases hi
  exact congrFun heffect q

end JavaType

/-- The arguments are packed into an array of objects. -/
theorem packing_proves {parameters : List (JavaType × UInt16)} (hvoid : ∀ p ∈ parameters, p.1 ≠ .void) :
    Proves lead (Block.packing parameters) .nothing (.operand 0 .objectArray) := by
  have element : ∀ {t : JavaType}, t ≠ .void → ∀ (slot : UInt16) (i : Nat),
      Proves lead ([Template.op Op.dup, .pushInt (Int32.ofNat i), .var t.loadOpcode slot] ++ t.boxing ++
        [Template.op Op.aastore]) (.operand 0 .objectArray) (.operand 0 .objectArray) := by
    intro t ht slot i
    refine .append (.append ?_ (t.boxing_proves ht _))
      (.cons (.of_shows (shows_op rfl (Nat.le_refl 3)) rfl rfl) .nil)
    exact .cons (.of_shows (shows_dup _) rfl rfl) (.cons (.of_shows (shows_pushInt _ _ _) rfl rfl)
      (.cons (.of_shows (t.load_shows ht slot 2 _) rfl rfl) .nil))
  have elements : ∀ k, Proves lead (parameters.zipIdx k |>.flatMap fun x =>
      [Template.op Op.dup, .pushInt (Int32.ofNat x.2), .var x.1.1.loadOpcode x.1.2] ++ x.1.1.boxing ++
        [Template.op Op.aastore])
      (.operand 0 .objectArray) (.operand 0 .objectArray) := by
    induction parameters with
    | nil => exact fun _ => .nil
    | cons p parameters ih =>
      intro k
      rw [List.zipIdx_cons, List.flatMap_cons]
      exact .append (element (hvoid p (List.mem_cons_self ..)) p.2 k)
        (ih (fun p hp => hvoid p (List.mem_cons_of_mem _ hp)) (k + 1))
  exact .cons (.of_shows shows_nothing rfl rfl)
    (.cons (.of_shows anewarray_shows rfl rfl) (elements 0))

/-- An array that is kept in a local variable is loaded. -/
theorem aload_shows {slot : UInt16} (hχ : χ.OfLocals)
    (harray : ∀ f, χ.Holds f → f.locals[slot.toNat]? = some .objectArray) :
    (Template.var Op.aload slot).Shows χ (χ.and (.operand 0 .objectArray)) := by
  intro q i hi owner n f m hf he
  refine ⟨shows_spared rfl hχ q i hi owner n f m hf he, ?_⟩
  cases hi
  have hload : Op.aload ≤ Op.aload := UInt8.le_refl _
  obtain ⟨v, u, hu, rfl, -, hv⟩ := Machine.load_eq_ok hload he
  rw [show f.locals[slot.toNat]? = _ from harray f hf] at hu
  cases hu
  rw [hv rfl]
  rfl

theorem elementType_objectArray : Machine.elementType .objectArray = .object objectClass := by
  decide +kernel

/-- An element of an array of objects. -/
theorem aaload_shows : (Template.op Op.aaload).Shows (.operand 1 .objectArray)
    (.operand 0 (.object objectClass)) := by
  intro q i hi owner n f m hf he
  cases hi
  have heffect : simpleEffect Op.aaload = some (.element none) := rfl
  simp only [execute, Machine.simple, heffect] at he
  obtain ⟨⟨v, k⟩, hk, h⟩ := bind_eq_ok.1 he
  obtain ⟨⟨array, k'⟩, hk', h⟩ := bind_eq_ok.1 h
  cases h
  obtain ⟨hdrops, -⟩ := Machine.drops_pop hk
  have harray := (Machine.drops_popReference hk').2
  rw [hdrops.stack, List.getElem?_drop] at harray
  have hf : f.stack[1]? = some .objectArray := hf
  obtain rfl : VType.objectArray = array := Option.some.inj (hf.symm.trans harray)
  rw [Option.getD_none, elementType_objectArray]
  rfl

namespace JavaType

variable {t : JavaType}

/-- Unboxing an object leaves a value of the type. -/
theorem unboxing_proves (hχ : χ.OfLocals) (ht : t ≠ void) :
    Proves lead t.unboxing (χ.and (.operand 0 (.object objectClass)))
      (χ.and (.operand (t.slots - 1) (.ofJava t))) := by
  have cast : ∀ c, Proves lead (if c = objectClass then [] else [.type Op.checkcast c])
      (χ.and (.operand 0 (.object objectClass))) (χ.and (.operand 0 (.object c))) := by
    intro c
    split
    · rename_i hc
      rw [hc]
      exact .nil
    · exact .cons (.of_shows ((checkcast_shows c).beside rfl hχ) rfl rfl) .nil
  have ask : ∀ {t : JavaType} {owner name descriptor}, t ≠ void →
      MethodDescriptor.ofDescriptor descriptor = .ok ⟨[], t⟩ →
      Proves lead (unwrapping owner name descriptor) (χ.and (.operand 0 (.object objectClass)))
        (χ.and (.operand (t.slots - 1) (.ofJava t))) := by
    intro t owner name descriptor ht h
    exact .cons (.of_shows ((checkcast_shows owner).beside rfl hχ) rfl rfl)
      (.cons (.of_shows ((invokevirtual_shows ht h).beside rfl hχ) rfl rfl) .nil)
  cases t with
  | void => exact absurd rfl ht
  | object name => exact cast name
  | array component => exact cast _
  | boolean => exact ask ht (by decide +kernel)
  | byte => exact ask ht (by decide +kernel)
  | char => exact ask ht (by decide +kernel)
  | short => exact ask ht (by decide +kernel)
  | int => exact ask ht (by decide +kernel)
  | long => exact ask ht (by decide +kernel)
  | float => exact ask ht (by decide +kernel)
  | double => exact ask ht (by decide +kernel)

theorem slots_pos (ht : t ≠ void) : 0 < t.slots := by
  cases t with
  | void => exact absurd rfl ht
  | _ => exact Nat.succ_pos _

/-- The last slot of a value is not the first one of a wide value. -/
theorem last_slot_narrow {v : VType} {n : Nat} {u : VType} (hn : n + 1 = v.slots.length)
    (hu : v.slots[n]? = some u) : u.isWide = false := by
  unfold VType.slots at hn hu
  cases hv : v.isWide with
  | false =>
    simp only [hv, Bool.false_eq_true, if_false, List.length_singleton] at hn hu
    obtain rfl : n = 0 := by omega
    cases hu
    exact hv
  | true =>
    simp only [hv, if_true, List.length_cons, List.length_nil] at hn hu
    obtain rfl : n = 1 := by omega
    cases hu
    rfl

theorem execute_store (q : Pool) (owner : String) (n : Nat) (slot : UInt16) (m : Machine) :
    execute q owner n (.var t.storeOpcode slot) m = m.store n t.storeOpcode slot.toNat := by
  cases t <;> rfl

/-- What a store takes off the stack is the value that lies there. -/
theorem popStored_eq_ok {m k : Machine} {n : Nat} {v u : VType} (ht : t ≠ void)
    (h : m.popStored n t.storeOpcode = .ok (v, k)) (hu : m.stack[t.slots - 1]? = some u) :
    v = u ∧ k.locals = m.locals := by
  have one : ∀ {x : Except CodeError (VType × Machine)}, x = .ok (v, k) →
      (∀ {v k}, x = .ok (v, k) → m.Drops k 1 ∧ m.stack[0]? = some v) → m.stack[0]? = some u →
      v = u ∧ k.locals = m.locals := by
    intro x hx hdrops hu
    obtain ⟨hk, hv⟩ := hdrops hx
    exact ⟨Option.some.inj (hv.symm.trans hu), hk.locals⟩
  have two : (m.popSlots n 2).map (fun x => (x.1.getLast?.getD .top, x.2)) = .ok (v, k) →
      m.stack[1]? = some u → v = u ∧ k.locals = m.locals := by
    intro h hu
    obtain ⟨⟨vs, k'⟩, hp, he⟩ := map_eq_ok.1 h
    cases he
    obtain ⟨hdrops, rfl⟩ := Machine.drops_popSlots hp
    refine ⟨?_, hdrops.locals⟩
    generalize m.stack = stack at hu ⊢
    rcases stack with _ | ⟨a, _ | ⟨b, rest⟩⟩ <;> cases hu
    rfl
  cases t with
  | void => exact absurd rfl ht
  | long => exact two h hu
  | double => exact two h hu
  | object name => exact one (x := m.popReference n) h Machine.drops_popReference hu
  | array component => exact one (x := m.popReference n) h Machine.drops_popReference hu
  | _ => exact one (x := m.pop n) h Machine.drops_pop hu

end JavaType

/-- An array of objects is in a local variable, and others from one up to another have the types of a list. -/
def Fact.restored (arguments : UInt16) (lo hi : Nat) (types : List VType) : Fact :=
  (Fact.slot arguments.toNat .objectArray).and (.slots lo hi types)

theorem Fact.restored_ofLocals {arguments : UInt16} {lo hi : Nat} {types : List VType} :
    (Fact.restored arguments lo hi types).OfLocals := by
  intro f g h hf
  unfold Fact.restored Fact.and Fact.slot Fact.slots
  simp only [h]
  exact hf

section Unpacking

variable {arguments : UInt16} {lo : Nat} {types : List VType}

/-- A value is stored behind those that are stored already. -/
theorem store_shows {t : JavaType} {slot : UInt16} (ht : t ≠ .void)
    (hroom : slot.toNat + t.slots ≤ arguments.toNat)
    (htypes : ∀ j < t.slots, types[slot.toNat + j]? = (VType.ofJava t).slots[j]?)
    (hlast : ∀ k u, lo ≤ k → k + 1 = slot.toNat → types[k]? = some u → u.isWide = false) :
    (Template.var t.storeOpcode slot).Shows
      ((Fact.restored arguments lo slot.toNat types).and (.operand (t.slots - 1) (.ofJava t)))
      (.restored arguments lo (slot.toNat + t.slots) types) := by
  intro q i hi owner n f m hf he
  cases hi
  have hslots := Machine.slots_ofJava ht
  obtain ⟨⟨harray, hstored⟩, hvalue⟩ := hf
  rw [JavaType.execute_store, Machine.store_eq] at he
  obtain ⟨⟨v, k⟩, hp, rfl⟩ := map_eq_ok.1 he
  obtain ⟨rfl, hk⟩ := JavaType.popStored_eq_ok ht hp hvalue
  refine ⟨?_, fun n hlo hhi => ?_⟩
  · change (Machine.storeLocal _ _ k.locals)[_]? = _
    rw [hk]
    exact Machine.getElem?_storeLocal_of_ne harray (by omega) (by omega)
  · change (Machine.storeLocal _ _ k.locals)[_]? = _
    rw [hk]
    by_cases hn : n < slot.toNat
    · have hlength : slot.toNat < types.length := by
        have hpos := JavaType.slots_pos ht
        have hfirst := (htypes 0 hpos).trans (List.getElem?_eq_getElem (by rwa [hslots]))
        exact (List.getElem?_eq_some_iff.1 hfirst).1
      obtain ⟨u, hu⟩ : ∃ u, types[n]? = some u := ⟨_, List.getElem?_eq_getElem (by omega)⟩
      rw [hu]
      exact Machine.getElem?_storeLocal_of_ne ((hstored n hlo hn).trans hu)
        (fun h => hlast n u hlo h hu) (.inl hn)
    · obtain ⟨j, rfl⟩ := Nat.exists_eq_add_of_le (Nat.le_of_not_lt hn)
      have hj : j < t.slots := by omega
      rw [htypes j hj]
      exact Machine.getElem?_storeLocal_self (by omega)

/-- The elements of the array are stored into the parameters, which have the types of a list then. -/
theorem unpacking_proves (k : Nat) (first : UInt16) {ts : List JavaType} (hvoid : ∀ t ∈ ts, t ≠ .void)
    (hroom : first.toNat + (ts.map JavaType.slots).sum ≤ arguments.toNat)
    (htypes : types.drop first.toNat = ts.flatMap fun t => (VType.ofJava t).slots)
    (hlast : ∀ n u, lo ≤ n → n + 1 = first.toNat → types[n]? = some u → u.isWide = false) :
    Proves lead (((Block.parameterSlots first ts).zipIdx k).flatMap fun x =>
        [Template.var Op.aload arguments, .pushInt (Int32.ofNat x.2), .op Op.aaload] ++ x.1.1.unboxing ++
          [Template.var x.1.1.storeOpcode x.1.2])
      (.restored arguments lo first.toNat types)
      (.restored arguments lo (first.toNat + (ts.map JavaType.slots).sum) types) := by
  induction ts generalizing k first with
  | nil => exact .nil
  | cons t ts ih =>
    have keeps : (Fact.restored arguments lo first.toNat types).OfLocals := Fact.restored_ofLocals
    have ht := hvoid t (List.mem_cons_self ..)
    have hslots := Machine.slots_ofJava ht
    have hslot : arguments.toNat ≤ 0xFFFF := Nat.le_of_lt_succ arguments.toNat_lt
    have hnext := Block.toNat_add_slots (Nat.le_trans hroom hslot)
    rw [List.map_cons, List.sum_cons] at hroom ⊢
    rw [List.flatMap_cons] at htypes
    have hvalue : ∀ j < t.slots, types[first.toNat + j]? = (VType.ofJava t).slots[j]? := by
      intro j hj
      rw [← List.getElem?_drop, htypes, List.getElem?_append_left (by omega)]
    have hrest := ih (k + 1) (first + UInt16.ofNat t.slots)
      (fun t ht => hvoid t (List.mem_cons_of_mem _ ht)) (by omega)
      (by rw [hnext, ← List.drop_drop, htypes, ← hslots, List.drop_left])
      (fun n u hlo hn hu => by
        have hpos := JavaType.slots_pos ht
        obtain ⟨j, rfl⟩ := Nat.exists_eq_add_of_le (show first.toNat ≤ n by omega)
        rw [hvalue j (by omega)] at hu
        exact JavaType.last_slot_narrow (by omega) hu)
    rw [hnext, Nat.add_assoc] at hrest
    rw [Block.parameterSlots, List.zipIdx_cons, List.flatMap_cons]
    refine .append (.append (.append ?_ (t.unboxing_proves keeps ht)) ?_) hrest
    · refine .cons (.of_shows (aload_shows keeps fun f hf => hf.1) rfl rfl) ?_
      refine .cons (.of_shows ((shows_pushInt _ 0 _).beside rfl keeps) rfl rfl) ?_
      exact .cons (.of_shows (aaload_shows.beside rfl keeps) rfl rfl) .nil
    · have hbound : first.toNat + t.slots ≤ arguments.toNat := by omega
      exact .cons (.of_shows (store_shows ht hbound hvalue hlast) rfl rfl) .nil

/-- The array is stored; no other local variable is claimed to have a type. -/
theorem astore_shows : (Template.var Op.astore arguments).Shows (.operand 0 .objectArray)
    (.restored arguments lo lo types) := by
  intro q i hi owner n f m hf he
  refine ⟨?_, fun n hlo hhi => absurd hhi (Nat.not_lt_of_le hlo)⟩
  cases hi
  have he : (⟨f, 0⟩ : Machine).store n Op.astore arguments.toNat = .ok m := he
  rw [Machine.store_eq] at he
  obtain ⟨⟨v, k⟩, hp, rfl⟩ := map_eq_ok.1 he
  obtain ⟨rfl, -⟩ := JavaType.popStored_eq_ok (t := .object objectClass) JavaType.noConfusion hp hf
  exact Machine.getElem?_storeLocal_self (v := .objectArray) (j := 0) Nat.one_pos

end Unpacking

namespace JavaType

theorem unboxing_spares (t : JavaType) : t.unboxing.all Template.spares = true := by
  have cast : ∀ c, (if c = objectClass then [] else [Template.type Op.checkcast c]).all
      Template.spares = true := by
    intro c
    split <;> rfl
  cases t with
  | object name => exact cast name
  | array component => exact cast _
  | _ => rfl

end JavaType

namespace WeaveSite

variable (s : WeaveSite) (arguments : UInt16) (l : Label)

theorem length_receiver (context : MethodContext) : context.receiverSlots =
    (if context.isStatic then [] else if context.startsUninitialized then [VType.uninitializedThis]
      else [VType.object context.owner]).length := by
  unfold MethodContext.receiverSlots
  split
  · rfl
  · split <;> rfl

/-- The array of the arguments is in its local variable, and the parameters have the types of the initial
frame. -/
def restored : Fact :=
  .restored arguments s.context.receiverSlots
    (s.context.receiverSlots + s.context.descriptor.parameterSlots) (initialFrame s.context).locals

/-- The report of the start proves that the parameters have the types of the initial frame behind it. -/
theorem startReport_proves (hvoid : ∀ t ∈ s.context.descriptor.parameters, t ≠ .void)
    (hroom : s.context.receiverSlots + s.context.descriptor.parameterSlots ≤ arguments.toNat)
    {behind : Label} (hbehind : .place behind ∉ s.startReport arguments l) :
    ∃ lead, lead behind = s.restored arguments ∧
      Proves lead (s.startReport arguments l) .nothing (s.restored arguments) := by
  let types := (initialFrame s.context).locals
  let stored := Fact.restored arguments s.context.receiverSlots s.context.receiverSlots types
  let restored := s.restored arguments
  have keeps : stored.OfLocals := Fact.restored_ofLocals
  let lead : Label → Fact := fun l' => if l' = behind then restored else stored
  let checked : List Template := (.var Op.aload arguments :: (Block.address s.plan ++
      [Template.pushInt s.plan.loader, .pushString s.plan.className, .pushString s.context.name,
        .pushString s.context.descriptor.descriptor,
        if s.context.isStatic then .op Op.aconstNull else .var Op.aload 0, Block.invocation .before])) ++
      Block.verdictCheck s.returnType l (l + 1)
  have hparts : s.startReport arguments l = Marker.opening ++ Block.packing s.parameters ++
      ([Template.var Op.astore arguments] ++ (checked ++ (Block.unpacking arguments s.parameters ++
        Marker.closing))) := by
    rw [startReport, Marker.around]
    simp [checked, Block.beforeDispatch]
  have hparameters : ∀ p ∈ s.parameters, p.1 ≠ .void := by
    intro p hp
    obtain ⟨i, hi⟩ := List.mem_iff_getElem?.1 hp
    exact hvoid _ (List.mem_of_getElem? ((getElem?_parameters hroom).1 hi).1)
  have packed : Proves lead (Marker.opening ++ Block.packing s.parameters) .nothing
      (.operand 0 .objectArray) :=
    .cons (.of_shows shows_nothing rfl rfl) (.cons (.of_shows shows_nothing rfl rfl)
      (packing_proves hparameters))
  have kept : Proves lead [.var Op.astore arguments] (.operand 0 .objectArray) stored :=
    .cons (.of_shows astore_shows rfl rfl) .nil
  have middle : Proves lead checked stored stored := by
    refine .of_spares ?_ ?_ keeps fun l' hl' => if_neg ?_
    · have hchecked : (Block.verdictCheck s.returnType l (l + 1)).all Template.spares = true := by
        rw [Block.verdictCheck_eq, List.all_append, List.all_append, JavaType.unboxing_spares]
        rfl
      rw [List.all_append, hchecked, Bool.and_true]
      split <;> rfl
    · refine Enclosed.append (Leadless.enclosed fun x hx => ?_) (verdictCheck_enclosed _ _ _)
      have hmem := List.mem_cons_of_mem (.var Op.astore arguments) hx
      refine s.beforeDispatch_leadless s.context.name s.context.descriptor.descriptor s.context.isStatic
        arguments x ?_
      simpa [Block.beforeDispatch] using hmem
    · rintro rfl
      refine hbehind ?_
      rw [hparts]
      exact List.mem_append_right _ (List.mem_append_right _ (List.mem_append_left _ hl'))
  have hslots : types.drop s.firstParameter.toNat =
      s.context.descriptor.parameters.flatMap fun t => (VType.ofJava t).slots := by
    rw [firstParameter_toNat, length_receiver]
    exact List.drop_left
  have unpacking : Proves lead (Block.unpacking arguments s.parameters) stored restored := by
    show Proves lead (Block.unpacking arguments s.parameters)
      (.restored arguments s.context.receiverSlots s.context.receiverSlots types) (.restored arguments
        s.context.receiverSlots (s.context.receiverSlots + s.context.descriptor.parameterSlots) types)
    rw [← firstParameter_toNat] at hroom ⊢
    exact unpacking_proves 0 s.firstParameter hvoid hroom hslots fun n u hlo hn => absurd hn (by omega)
  have last : Proves lead Marker.closing restored restored := by
    have keeps : restored.OfLocals := Fact.restored_ofLocals
    exact .cons (.of_shows (shows_spared rfl keeps) rfl rfl)
      (.cons (.of_shows (shows_spared rfl keeps) rfl rfl) .nil)
  refine ⟨lead, if_pos rfl, ?_⟩
  rw [hparts]
  exact packed.append (kept.append (middle.append (unpacking.append last)))

end WeaveSite

end Interpose
