import Interpose.Proofs.Execution.Platform
/-!
# Running without addresses

Where subroutines are expanded there are no addresses: null stands in their place (`Store.forget`). An
instruction that goes on with addresses goes on without them, to the same place and with the same values
apart from the addresses (`act_forget`), as long as the operations of the platform do not look at addresses
(`Blind`).
-/

namespace Interpose

namespace Word

variable {Object : Type}

/-- Null in place of an address. -/
def forget : Word Object → Word Object
  | address _ => null
  | v => v

theorem rearranged_map (f : Word Object → Word Object) {op : Opcode} {st st' : List (Word Object)}
    (h : rearranged op st = some st') : rearranged op (st.map f) = some (st'.map f) := by
  unfold rearranged at h
  split at h <;> cases h <;> rfl

theorem returned_forget {op : Opcode} {st value : List (Word Object)} (h : returned op st = some value) :
    returned op (st.map forget) = some value := by
  unfold returned at h
  split at h <;> cases h <;> rfl

theorem same_forget [DecidableEq Object] {a b : Word Object} {r : Bool} (h : same a b = some r) :
    same a.forget b.forget = some r := by
  unfold same at h
  split at h <;> cases h <;> rfl

/-- What comes of a comparison of references. -/
theorem map_same_forget [DecidableEq Object] {a b : Word Object} {g : Bool → Bool} {st st' : List (Word Object)}
    {taken : Bool} (h : (same a b).map (fun e => (g e, st)) = some (taken, st')) :
    (same a.forget b.forget).map (fun e => (g e, st.map forget)) = some (taken, st'.map forget) := by
  obtain ⟨e, he, hr⟩ := Option.map_eq_some_iff.1 h
  cases hr
  rw [same_forget he, Option.map_some]

theorem branch_forget [DecidableEq Object] {op : Opcode} {st st' : List (Word Object)} {taken : Bool}
    (h : branch op st = some (taken, st')) : branch op (st.map forget) = some (taken, st'.map forget) := by
  unfold branch at h ⊢
  by_cases hgoto : op = Op.goto
  · rw [if_pos hgoto] at h ⊢
    cases h
    rfl
  rw [if_neg hgoto] at h ⊢
  by_cases hnull : (op = Op.ifnull || op = Op.ifnonnull) = true
  · rw [if_pos hnull] at h ⊢
    cases st with
    | nil => cases h
    | cons v st => exact map_same_forget (b := null) h
  rw [if_neg hnull] at h ⊢
  by_cases hint : Op.between Op.ifeq Op.ifle op = true
  · rw [if_pos hint] at h ⊢
    split at h <;> cases h
    rfl
  rw [if_neg hint] at h ⊢
  by_cases hints : Op.between Op.ifIcmpeq Op.ifIcmple op = true
  · rw [if_pos hints] at h ⊢
    split at h <;> cases h
    rfl
  rw [if_neg hints] at h ⊢
  by_cases hrefs : (op = Op.ifAcmpeq || op = Op.ifAcmpne) = true
  · rw [if_pos hrefs] at h ⊢
    split at h
    · exact map_same_forget h
    · cases h
  · rw [if_neg hrefs] at h
    cases h

end Word

namespace Platform

variable {P : Platform}

def Store.forget (s : P.Store) : P.Store :=
  ⟨s.world, s.stack.map Word.forget, fun k => (s.locals k).forget⟩

namespace Store

variable {s u : P.Store}

@[simp] theorem forget_world (s : P.Store) : s.forget.world = s.world := rfl

@[simp] theorem forget_stack (s : P.Store) : s.forget.stack = s.stack.map Word.forget := rfl

@[simp] theorem forget_locals (s : P.Store) (k : Nat) : s.forget.locals k = (s.locals k).forget := rfl

theorem forget_set (s : P.Store) (slot : Nat) (v : Word P.Object) :
    (s.set slot v).forget = s.forget.set slot v.forget := by
  unfold forget set
  congr 1
  funext k
  exact apply_ite Word.forget ..

theorem forget_load (s : P.Store) (op : Opcode) (slot : Nat) :
    (s.load op slot).forget = s.forget.load op slot := by
  unfold load
  split <;> rfl

theorem store_forget {op : Opcode} {slot : Nat} (h : s.store op slot = some u) :
    s.forget.store op slot = some u.forget := by
  obtain ⟨w, st, ν⟩ := s
  unfold store at h ⊢
  split at h
  · rw [if_pos ‹_›]
    split at h
    · rename_i hst
      cases hst
      cases h
      rw [forget_set, forget_set]
      rfl
    · cases h
  · rw [if_neg ‹_›]
    split at h
    · rename_i hst
      cases hst
      cases h
      rw [forget_set]
      rfl
    · cases h

end Store

/-- The action without addresses, and with other labels. -/
def Action.forget (f : Label → Label) : P.Action → P.Action
  | .next s => .next s.forget
  | .jump l s => .jump (f l) s.forget
  | .throw w o => .throw w o
  | .leave value w => .leave value w
  | .stuck => .stuck

/-- Operations come out the same where null stands in place of an address. -/
structure Blind (P : Platform) (own : Operation → Prop) : Prop where
  done : ∀ {op w st w' st'}, own op → P.perform op w st = .done w' st' →
    P.perform op w (st.map Word.forget) = .done w' (st'.map Word.forget)
  thrown : ∀ {op w st w' o}, own op → P.perform op w st = .thrown w' o →
    P.perform op w (st.map Word.forget) = .thrown w' o

variable {own : Operation → Prop} {q : Pool} {insn : Insn} {s : P.Store}

namespace Blind

theorem carryOut (h : P.Blind own) (hown : ∀ op ∈ Operation.ofInsn q insn, own op) (f : Label → Label)
    (hstuck : P.carryOut q insn s ≠ .stuck) :
    P.carryOut q insn s.forget = (P.carryOut q insn s).forget f := by
  unfold Platform.carryOut at hstuck ⊢
  split at hstuck
  · exact absurd rfl hstuck
  · rename_i op hop
    rw [Store.forget_world, Store.forget_stack]
    split at hstuck
    · rename_i hdone
      rw [h.done (hown op hop) hdone]
      rfl
    · rename_i hthrown
      rw [h.thrown (hown op hop) hthrown]
      rfl
    · exact absurd rfl hstuck

theorem athrow (h : P.Blind own) (hown : own (.simple Op.athrow)) (f : Label → Label)
    (hstuck : P.act q (.simple Op.athrow) s ≠ .stuck) :
    P.act q (.simple Op.athrow) s.forget = (P.act q (.simple Op.athrow) s).forget f := by
  obtain ⟨w, st, ν⟩ := s
  by_cases hobject : ∃ o rest, st = .object o :: rest
  · obtain ⟨o, rest, rfl⟩ := hobject
    change (if P.isA w o throwableClass = true then Action.throw w o else .stuck) =
      Action.forget f (if P.isA w o throwableClass = true then Action.throw w o else .stuck)
    rw [apply_ite (Action.forget f)]
    rfl
  · have hst : ∀ o rest, st ≠ .object o :: rest := fun o rest hst => hobject ⟨o, rest, hst⟩
    have hmap : ∀ o rest, st.map Word.forget ≠ .object o :: rest := by
      intro o rest hmap
      cases st with
      | nil => cases hmap
      | cons v st =>
        cases v with
        | object o => exact hst o st rfl
        | _ => cases hmap
    obtain ⟨w', o, hthrown⟩ := thrown_of_athrow hst hstuck
    rw [act_athrow_other ν hst hthrown]
    exact act_athrow_other _ hmap (h.thrown hown hthrown)

theorem simple (h : P.Blind own) {op : Opcode} (hown : own (.simple op)) (f : Label → Label)
    (hstuck : P.simple q op s ≠ .stuck) : P.simple q op s.forget = (P.simple q op s).forget f := by
  by_cases hthrow : op = Op.athrow
  · subst hthrow
    exact h.athrow hown f hstuck
  unfold Platform.simple at hstuck ⊢
  by_cases hreturn : Op.isReturn op = true
  · rw [if_pos hreturn] at hstuck ⊢
    rw [if_pos hreturn, Store.forget_stack]
    split at hstuck
    · rename_i hvalue
      rw [Word.returned_forget hvalue]
      rfl
    · exact absurd rfl hstuck
  rw [if_neg hreturn, if_neg hthrow] at hstuck ⊢
  rw [if_neg hreturn, if_neg hthrow]
  by_cases hmove : Op.between Op.pop Op.swap op = true
  · rw [if_pos hmove] at hstuck ⊢
    rw [if_pos hmove, Store.forget_stack]
    split at hstuck
    · rename_i hst
      rw [Word.rearranged_map _ hst]
      rfl
    · exact absurd rfl hstuck
  rw [if_neg hmove] at hstuck ⊢
  rw [if_neg hmove]
  by_cases hnumber : Op.between Op.iconstM1 Op.iconst5 op = true
  · rw [if_pos hnumber, if_pos hnumber]
    rfl
  rw [if_neg hnumber] at hstuck ⊢
  rw [if_neg hnumber]
  by_cases hnull : op = Op.aconstNull
  · rw [if_pos hnull, if_pos hnull]
    rfl
  rw [if_neg hnull] at hstuck ⊢
  rw [if_neg hnull]
  exact h.carryOut (by rintro _ ⟨⟩; exact hown) f hstuck

end Blind

theorem tableTarget_map (f : Label → Label) (fallback : Label) (low : Int32) (targets : List Label)
    (key : Int32) : tableTarget (f fallback) low (targets.map f) key = f (tableTarget fallback low targets key) := by
  unfold tableTarget
  split
  · rw [List.getD_eq_getElem?_getD, List.getD_eq_getElem?_getD, List.getElem?_map, Option.getD_map]
  · rfl

theorem lookupTarget_map (f : Label → Label) (fallback : Label) (pairs : List (Int32 × Label)) (key : Int32) :
    lookupTarget (f fallback) (pairs.map fun (k, l) => (k, f l)) key = f (lookupTarget fallback pairs key) := by
  unfold lookupTarget
  rw [← Option.getD_map f, List.find?_map, Option.map_map, Option.map_map]
  rfl

/-- An instruction that goes on with addresses does so without them. -/
theorem act_forget (h : P.Blind own) (hown : ∀ op ∈ Operation.ofInsn q insn, own op) (f : Label → Label)
    (hstuck : P.act q insn s ≠ .stuck) :
    P.act q (insn.retarget f) s.forget = (P.act q insn s).forget f := by
  cases insn with
  | label _ | line _ => rfl
  | simple op => exact h.simple (hown _ rfl) f hstuck
  | int op n =>
    unfold act at hstuck ⊢
    simp only [Insn.retarget] at hstuck ⊢
    split at hstuck
    · rw [if_pos ‹_›, if_pos ‹_›]
      exact h.carryOut hown f hstuck
    · rw [if_neg ‹_›, if_neg ‹_›]
      rfl
  | var op slot =>
    unfold act at hstuck ⊢
    simp only [Insn.retarget] at hstuck ⊢
    split at hstuck
    · rw [if_pos ‹_›, if_pos ‹_›, ← Store.forget_load]
      rfl
    · rw [if_neg ‹_›, if_neg ‹_›]
      split at hstuck
      · rename_i hstore
        rw [Store.store_forget hstore]
        rfl
      · exact absurd rfl hstuck
  | iinc slot delta =>
    unfold act at hstuck ⊢
    simp only [Insn.retarget, Store.forget_locals] at hstuck ⊢
    split at hstuck
    · rename_i hslot
      rw [hslot, Action.forget, Store.forget_set]
      rfl
    · exact absurd rfl hstuck
  | ldc index =>
    unfold act at hstuck ⊢
    simp only [Insn.retarget] at hstuck ⊢
    split at hstuck
    · rfl
    · exact h.carryOut hown f hstuck
  | jump op l =>
    unfold act at hstuck ⊢
    simp only [Insn.retarget, Store.forget_stack] at hstuck ⊢
    split at hstuck
    · rename_i hbranch
      rw [Word.branch_forget hbranch]
      rfl
    · rename_i hbranch
      rw [Word.branch_forget hbranch]
      rfl
    · exact absurd rfl hstuck
  | tableSwitch fallback low targets =>
    unfold act at hstuck ⊢
    simp only [Insn.retarget, Store.forget_stack] at hstuck ⊢
    split at hstuck
    · rename_i hst
      rw [hst, List.map_cons]
      exact congrArg (fun l => Action.jump l _) (tableTarget_map f fallback low targets _)
    · exact absurd rfl hstuck
  | lookupSwitch fallback pairs =>
    unfold act at hstuck ⊢
    simp only [Insn.retarget, Store.forget_stack] at hstuck ⊢
    split at hstuck
    · rename_i hst
      rw [hst, List.map_cons]
      exact congrArg (fun l => Action.jump l _) (lookupTarget_map f fallback pairs _)
    · exact absurd rfl hstuck
  | _ => exact h.carryOut hown f hstuck

end Platform

end Interpose
