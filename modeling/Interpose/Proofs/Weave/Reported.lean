import Interpose.Proofs.Code.Wording
import Interpose.Proofs.Weave.Copies
/-!
# Reports in code

A report is written between markers, and nothing between them looks like a marker
(`Template.Dispatches`). In code the report has one invocation of a dispatch method, with its
listener in front of it (`Reported`), and a later pass that has read it is outside of reports again
(`Reported.foldl_observe`).
-/

namespace Interpose

/-! ## Markers -/

/-- Whether the instruction pushes a constant that a marker starts with. -/
def Insn.isHalf (i : Insn) : Bool :=
  i == .simple Op.iconst2 || i == .simple Op.iconst3

/-- Whether no constant that a marker starts with is dropped at once; marks of labels and source
lines do not count. The flag tells whether such a constant stands in front. -/
def unmarked : (half : Bool) → List Insn → Bool
  | _, [] => true
  | half, i :: rest =>
    if i.isPseudo then unmarked half rest
    else !(half && i == .simple Op.pop) && unmarked i.isHalf rest

/-- Whether a constant that a marker starts with stands at the end. -/
def ending (half : Bool) (insns : List Insn) : Bool :=
  insns.foldl (fun half i => if i.isPseudo then half else i.isHalf) half

section Unmarked

variable {half : Bool} {i : Insn} {xs ys : List Insn}

theorem unmarked_pseudo (h : i.isPseudo = true) : unmarked half (i :: xs) = unmarked half xs := by
  rw [unmarked, if_pos h]

theorem unmarked_real (h : i.isPseudo = false) :
    unmarked half (i :: xs) = (!(half && i == .simple Op.pop) && unmarked i.isHalf xs) := by
  rw [unmarked, if_neg (by simp [h])]

theorem unmarked_append :
    unmarked half (xs ++ ys) = (unmarked half xs && unmarked (ending half xs) ys) := by
  induction xs generalizing half with
  | nil => simp [unmarked, ending]
  | cons i xs ih =>
    cases h : i.isPseudo with
    | true => rw [List.cons_append, unmarked_pseudo h, unmarked_pseudo h, ih]; simp [ending, h]
    | false =>
      rw [List.cons_append, unmarked_real h, unmarked_real h, ih, Bool.and_assoc]
      simp [ending, h]

theorem unmarked_of_half (h : unmarked half xs = true) : unmarked false xs = true := by
  induction xs generalizing half with
  | nil => rfl
  | cons i xs ih =>
    cases hi : i.isPseudo with
    | true =>
      rw [unmarked_pseudo hi] at h ⊢
      exact ih h
    | false =>
      rw [unmarked_real hi, Bool.and_eq_true] at h
      rw [unmarked_real hi, h.2]
      rfl

/-- What an instruction says is as much of a marker as the instruction. -/
theorem Insn.marker_of_wording {x : Insn} (h : i.wording = some x) :
    x.isPseudo = i.isPseudo ∧ x.isHalf = i.isHalf ∧ (x == .simple Op.pop) = (i == .simple Op.pop) := by
  cases i <;> cases h <;> exact ⟨rfl, rfl, rfl⟩

theorem unmarked_wording : unmarked half (wording xs) = unmarked half xs := by
  induction xs generalizing half with
  | nil => rfl
  | cons i xs ih =>
    cases hi : i.wording with
    | none =>
      rw [wording_cons, hi, unmarked_pseudo (by cases i <;> first | rfl | cases hi)]
      exact ih
    | some x =>
      obtain ⟨hpseudo, hhalf, hpop⟩ := Insn.marker_of_wording hi
      rw [wording_cons, hi, Option.toList_some, List.singleton_append, unmarked, unmarked, hpseudo, hhalf,
        hpop, ih, ih]

theorem ending_append : ending half (xs ++ ys) = ending (ending half xs) ys :=
  List.foldl_append

theorem ending_wording : ending half (wording xs) = ending half xs := by
  induction xs generalizing half with
  | nil => rfl
  | cons i xs ih =>
    rw [wording_cons, ending_append, ih]
    cases hi : i.wording with
    | none => cases i <;> first | rfl | cases hi
    | some x =>
      obtain ⟨hpseudo, hhalf, -⟩ := Insn.marker_of_wording hi
      simp [ending, hpseudo, hhalf]

/-- Jumps are no part of a marker. -/
theorem unmarked_jumps (n : Nat) :
    unmarked false (List.replicate n (.jump Op.goto 0) ++ xs) = unmarked false xs := by
  induction n with
  | zero => rfl
  | succ n ih =>
    rw [List.replicate_succ, List.cons_append, unmarked_real rfl]
    exact ih

/-- Branches that are split make no marker. -/
theorem Spreads.unmarked_eq (h : Spreads xs ys) : unmarked half ys = unmarked half xs := by
  induction h generalizing half with
  | nil => rfl
  | @cons x xs zs ys hx _ ih =>
    cases hx with
    | whole => rw [List.singleton_append, unmarked, unmarked, ih, ih]
    | @split op other n hop =>
      rw [List.cons_append, unmarked_real rfl, unmarked_real rfl]
      show (!(half && false) && unmarked false _) = (!(half && false) && unmarked false _)
      rw [unmarked_jumps, ih]

theorem Spreads.ending_eq (h : Spreads xs ys) : ending half ys = ending half xs := by
  induction h generalizing half with
  | nil => rfl
  | @cons x xs zs ys hx _ ih =>
    rw [ending_append, ih]
    cases hx with
    | whole => rfl
    | split n _ =>
      have hjumps : ∀ n, ending false (List.replicate n (.jump Op.goto 0)) = false := by
        intro n
        induction n with
        | zero => rfl
        | succ n ih => exact ih
      exact congrArg (ending · xs) (hjumps n)

end Unmarked

/-! ## Markers that are read -/

namespace MarkerScan

variable {s : MarkerScan} {i : Insn} {xs : List Insn}

theorem observe_pseudo (h : i.isPseudo = true) : s.observe i = s := by
  unfold observe
  rw [if_pos h]

/-- What completes no marker leaves a reader where it stands. -/
theorem observe_real (h : i.isPseudo = false) (hpop : (s.pending.isSome && i == .simple Op.pop) = false) :
    (s.observe i).inside = s.inside ∧ (s.observe i).pending.isSome = i.isHalf := by
  cases i with
  | simple op =>
    unfold observe
    rw [if_neg (by simp [h])]
    split
    · next hs hi => cases hi; simp [hs] at hpop
    · next hs hi => cases hi; simp [hs] at hpop
    · next heq _ _ =>
      cases heq
      by_cases hop : op = Op.iconst2 ∨ op = Op.iconst3
      · rw [if_pos hop]
        rcases hop with rfl | rfl <;> exact ⟨rfl, rfl⟩
      · rw [if_neg hop]
        rw [not_or] at hop
        simp [Insn.isHalf, hop.1, hop.2]
    · next hsimple _ _ => exact absurd rfl (hsimple op)
  | label _ | line _ => cases h
  | _ => simp [observe, Insn.isPseudo, Insn.isHalf]

/-- A constant that a marker starts with is kept in mind. -/
theorem observe_half {op : Opcode} (h : op = Op.iconst2 ∨ op = Op.iconst3) :
    s.observe (.simple op) = { s with pending := some op } := by
  unfold observe
  rw [if_neg (by simp [Insn.isPseudo])]
  split
  · next hi => cases hi; exact absurd h (by decide)
  · next hi => cases hi; exact absurd h (by decide)
  · next heq _ _ => cases heq; rw [if_pos h]
  · next hsimple _ _ => exact absurd rfl (hsimple op)

/-- Nor do instructions without a marker. -/
theorem foldl_observe (h : unmarked s.pending.isSome xs = true) :
    (xs.foldl observe s).inside = s.inside ∧
      (xs.foldl observe s).pending.isSome = ending s.pending.isSome xs := by
  induction xs generalizing s with
  | nil => exact ⟨rfl, rfl⟩
  | cons i xs ih =>
    cases hi : i.isPseudo with
    | true =>
      rw [unmarked_pseudo hi] at h
      rw [List.foldl_cons, observe_pseudo hi]
      obtain ⟨h1, h2⟩ := ih h
      exact ⟨h1, by rw [h2]; simp [ending, hi]⟩
    | false =>
      rw [unmarked_real hi, Bool.and_eq_true, Bool.not_eq_true'] at h
      obtain ⟨hinside, hpending⟩ := observe_real hi h.1
      obtain ⟨h1, h2⟩ := ih (by rw [hpending]; exact h.2)
      exact ⟨h1.trans hinside, by rw [List.foldl_cons, h2, hpending]; simp [ending, hi]⟩

/-- A reader only sees what instructions say. -/
theorem foldl_observe_wording : (wording xs).foldl observe s = xs.foldl observe s := by
  induction xs generalizing s with
  | nil => rfl
  | cons i xs ih =>
    rw [wording_cons, List.foldl_append, ih, List.foldl_cons]
    congr 1
    cases i with
    | jump _ _ | tableSwitch _ _ _ | lookupSwitch _ _ =>
      simp [observe, Insn.isPseudo, Insn.wording, Insn.sorted, Insn.retarget]
    | _ => rfl

end MarkerScan

/-! ## Reports -/

def opened : List Insn := [.simple Op.iconst2, .simple Op.pop]

def closed : List Insn := [.simple Op.iconst3, .simple Op.pop]

/-- The receiver of a report and what stands behind it, before the report is sent: the start of a
method is described behind the receiver. -/
def WeaveSite.operands (s : WeaveSite) (k : EventKind) : List Template :=
  Block.address s.plan ++
  if k = .before then
    [.pushInt s.plan.loader, .pushString s.plan.className, .pushString s.context.name,
      .pushString s.context.descriptor.descriptor,
      if s.context.isStatic then .op Op.aconstNull else .var Op.aload 0]
  else []

/-- Nothing is sent by the instructions, and they are no marks. -/
def Quiet (q : Pool) (insns : List Insn) : Prop :=
  ∀ i ∈ insns, i.isPseudo = false ∧
    ∀ op index, i = .method op index → ∃ m, q.memberRef index = .ok m ∧ m.owner ≠ Spy.className

/-- Instructions that report one event of a kind: between the markers stands one invocation of a
dispatch method, with the receiver of the report in front of it. -/
def Reported (q : Pool) (s : WeaveSite) (k : EventKind) (insns : List Insn) : Prop :=
  ∃ u operands index v,
    insns = opened ++ ((u ++ (operands ++ .method Op.invokestatic index :: v)) ++ closed) ∧
    Template.SettleAll q (s.operands k) operands ∧ q.memberRef index = .ok (Spy.method k) ∧
    Quiet q u ∧ Quiet q v ∧
    unmarked false (u ++ (operands ++ .method Op.invokestatic index :: v)) = true

namespace Quiet

variable {p q : Pool} {xs ys : List Insn}

theorem append (h : Quiet q xs) (h' : Quiet q ys) : Quiet q (xs ++ ys) := by
  intro i hi
  rcases List.mem_append.1 hi with hi | hi
  · exact h i hi
  · exact h' i hi

theorem within (hpq : p.Within q) (h : Quiet p xs) : Quiet q xs := by
  intro i hi
  refine ⟨(h i hi).1, fun op index he => ?_⟩
  obtain ⟨m, hm, howner⟩ := (h i hi).2 op index he
  exact ⟨m, hpq.memberRef hm, howner⟩

theorem spreads (h : Quiet q xs) (hs : Spreads xs ys) : Quiet q ys := by
  induction hs with
  | nil => exact h
  | cons hx _ ih =>
    refine append ?_ (ih fun i hi => h i (List.mem_cons_of_mem _ hi))
    cases hx with
    | whole => exact fun i hi => h i (List.mem_cons.2 (.inl (List.mem_singleton.1 hi)))
    | split n _ =>
      intro i hi
      rcases List.mem_cons.1 hi with rfl | hi
      · exact ⟨rfl, fun _ _ he => nomatch he⟩
      · rw [(List.mem_replicate.1 hi).2]
        exact ⟨rfl, fun _ _ he => nomatch he⟩

end Quiet

theorem Insn.Spread.eq_of_whole {x : Insn} {ys : List Insn} (h : x.Spread ys) (hx : ∀ op l, x ≠ .jump op l) :
    ys = [x] := by
  cases h with
  | whole => rfl
  | split n _ => exact absurd rfl (hx _ _)

/-- Without branches nothing is split. -/
theorem Spreads.eq_of_whole {xs ys : List Insn} (h : Spreads xs ys) (hxs : ∀ x ∈ xs, ∀ op l, x ≠ .jump op l) :
    ys = xs := by
  induction h with
  | nil => rfl
  | cons hx _ ih =>
    rw [hx.eq_of_whole (hxs _ (List.mem_cons_self ..)), ih fun x hx => hxs x (List.mem_cons_of_mem _ hx)]
    rfl

namespace Template

def Pushes (t : Template) : Prop :=
  (∃ n, t = .pushInt n) ∨ (∃ text, t = .pushString text) ∨ t = .op Op.aconstNull ∨ t = .var Op.aload 0

theorem pushes_operands (s : WeaveSite) (k : EventKind) : ∀ t ∈ s.operands k, t.Pushes := by
  intro t ht
  simp only [WeaveSite.operands, Block.address] at ht
  split at ht
  · simp only [List.cons_append, List.nil_append, List.mem_cons, List.not_mem_nil, or_false] at ht
    rcases ht with rfl | rfl | rfl | rfl | rfl | rfl | rfl
    pick_goal 7
    · cases s.context.isStatic <;> simp [Pushes]
    all_goals simp [Pushes]
  · simp at ht
    rcases ht with rfl | rfl <;> simp [Pushes]

variable {p q : Pool} {t : Template} {i : Insn} {ts : List Template} {xs ys : List Insn}

/-- What settles such a template says just that. -/
theorem Settles.of_pushes (h : t.Settles q i) (ht : t.Pushes) :
    i.wording = some i ∧ i.isPseudo = false ∧ (∀ op l, i ≠ .jump op l) ∧ ∀ op index, i ≠ .method op index := by
  rcases ht with ⟨n, rfl⟩ | ⟨text, rfl⟩ | rfl | rfl <;> cases h <;>
    refine ⟨rfl, rfl, ?_, ?_⟩ <;> (intro _ _ he; cases he)

theorem SettleAll.wording_of_pushes (h : SettleAll q ts xs) (hts : ∀ t ∈ ts, t.Pushes) : wording xs = xs := by
  induction h with
  | nil => rfl
  | cons ht _ ih =>
    rw [wording_cons, (ht.of_pushes (hts _ (List.mem_cons_self ..))).1,
      ih fun t ht => hts t (List.mem_cons_of_mem _ ht)]
    rfl

theorem SettleAll.spreads_of_pushes (h : SettleAll q ts xs) (hts : ∀ t ∈ ts, t.Pushes) (hs : Spreads xs ys) :
    ys = xs := by
  refine hs.eq_of_whole fun x hx op l => ?_
  obtain ⟨n, hn⟩ := List.getElem?_of_mem hx
  obtain ⟨t, ht, hsettles⟩ := forall₂_getElem? h.flip hn
  exact (Settles.of_pushes hsettles (hts t (List.mem_of_getElem? ht))).2.2.1 op l

theorem SettleAll.within (hpq : p.Within q) (h : SettleAll p ts xs) : SettleAll q ts xs :=
  h.imp fun _ _ => Settles.within hpq

end Template

namespace Reported

variable {p q : Pool} {s : WeaveSite} {k : EventKind} {xs ys : List Insn}

theorem within (hpq : p.Within q) (h : Reported p s k xs) : Reported q s k xs := by
  obtain ⟨u, operands, index, v, rfl, hoperands, hindex, hu, hv, hunmarked⟩ := h
  exact ⟨u, operands, index, v, rfl, hoperands.within hpq, hpq.memberRef hindex, hu.within hpq, hv.within hpq,
    hunmarked⟩

/-- Branches in a report may be split. -/
theorem spreads (h : Reported q s k xs) (hs : Spreads xs ys) : Reported q s k ys := by
  obtain ⟨u, operands, index, v, rfl, hoperands, hindex, hu, hv, hunmarked⟩ := h
  obtain ⟨o, m, rfl, ho, hm⟩ := hs.append_left
  obtain ⟨m, c, rfl, hm, hc⟩ := hm.append_left
  have hkeep : unmarked false m = _ := hm.unmarked_eq
  obtain ⟨u', m, rfl, hu', hm⟩ := hm.append_left
  obtain ⟨operands', m, rfl, hoperands', hm⟩ := hm.append_left
  cases hm with
  | cons hx hv' =>
    rw [hx.eq_of_whole fun _ _ he => nomatch he] at hkeep ⊢
    rw [hoperands.spreads_of_pushes (Template.pushes_operands s k) hoperands'] at hkeep ⊢
    rw [ho.eq_of_whole (by simp [opened]), hc.eq_of_whole (by simp [closed])]
    exact ⟨u', operands, index, _, rfl, hoperands, hindex, hu.spreads hu', hv.spreads hv',
      hkeep.trans hunmarked⟩

/-- Behind a report a reader of markers is outside again. -/
theorem foldl_observe (h : Reported q s k xs) (scan : MarkerScan) : xs.foldl MarkerScan.observe scan = {} := by
  obtain ⟨u, operands, index, v, rfl, -⟩ := h
  rw [List.foldl_append, List.foldl_append]
  simp only [closed, List.foldl_cons, List.foldl_nil, MarkerScan.observe_half (.inr rfl)]
  rfl

end Reported

/-! ## Reports by name -/

namespace Template

/-- The template sends nothing itself, it is no mark of a source line, and it settles to an
instruction that a reader can answer. -/
def calm : Template → Bool
  | plain (.line _) | plain (.method _ _) => false
  | plain i => decide i.Standard
  | type op _ => Cursor.Format.of op == .type
  | field op _ => Cursor.Format.of op == .field
  | method op m => Cursor.Format.of op == .method && m.owner != Spy.className
  | _ => true

/-- Whether the template may push a constant that a marker starts with. -/
def isHalf : Template → Bool
  | plain i => i.isHalf
  | pushInt _ => true
  | _ => false

def isPseudo : Template → Bool
  | plain i => i.isPseudo
  | _ => false

/-- Whether no template that may push a constant that a marker starts with is followed by one that
drops it. -/
def clear : (half : Bool) → List Template → Bool
  | _, [] => true
  | half, t :: ts =>
    if t.isPseudo then clear half ts else !(half && t == op Op.pop) && clear t.isHalf ts

/-- Templates that send nothing and make no marker, whatever stands in front of them. -/
structure Harmless (ts : List Template) : Prop where
  calm : ∀ t ∈ ts, t.calm = true
  clear : ∀ half, clear half ts = true

variable {q : Pool} {t : Template} {i : Insn} {ts ts' : List Template} {xs : List Insn} {half half' : Bool}

theorem clear_append (h : clear half ts = true) (h' : ∀ half, clear half ts' = true) :
    clear half (ts ++ ts') = true := by
  induction ts generalizing half with
  | nil => exact h' half
  | cons t ts ih =>
    rw [List.cons_append, clear]
    rw [clear] at h
    split
    · next hpseudo =>
      rw [if_pos hpseudo] at h
      exact ih h
    · next hpseudo =>
      rw [if_neg hpseudo, Bool.and_eq_true] at h
      rw [h.1, ih h.2]
      rfl

/-- Behind an instruction that pushes no such constant nothing is dropped. -/
theorem clear_behind (ts : List Template) (hpseudo : t.isPseudo = false) (hhalf : t.isHalf = false)
    (h : clear half (ts ++ [t]) = true) (h' : clear false ts' = true) : clear half (ts ++ t :: ts') = true := by
  induction ts generalizing half with
  | nil =>
    rw [List.nil_append, clear, if_neg (by simp [hpseudo])] at h ⊢
    rw [hhalf, h', Bool.and_true]
    exact (Bool.and_eq_true _ _ ▸ h).1
  | cons x ts ih =>
    rw [List.cons_append, clear] at h ⊢
    split
    · next hx =>
      rw [if_pos hx] at h
      exact ih h
    · next hx =>
      rw [if_neg hx, Bool.and_eq_true] at h
      rw [h.1, ih h.2]
      rfl

theorem Harmless.nil : Harmless [] := ⟨fun _ h => (nomatch h), fun _ => rfl⟩

theorem Harmless.append (h : Harmless ts) (h' : Harmless ts') : Harmless (ts ++ ts') where
  calm t ht := (List.mem_append.1 ht).elim (h.calm t) (h'.calm t)
  clear half := clear_append (h.clear half) h'.clear

theorem Harmless.cons (hcalm : t.calm = true) (hpop : t ≠ op Op.pop) (h : Harmless ts) :
    Harmless (t :: ts) where
  calm x hx := (List.mem_cons.1 hx).elim (fun he => he ▸ hcalm) (h.calm x)
  clear half := by
    rw [Template.clear]
    split
    · exact h.clear half
    · rw [h.clear, beq_eq_false_iff_ne.2 hpop, Bool.and_false]
      rfl

theorem Harmless.flatMap {α : Type} {zs : List α} {f : α → List Template} (h : ∀ z, Harmless (f z)) :
    Harmless (zs.flatMap f) := by
  induction zs with
  | nil => exact .nil
  | cons z zs ih =>
    rw [List.flatMap_cons]
    exact (h z).append ih

theorem Settles.isPseudo (h : t.Settles q i) : i.isPseudo = t.isPseudo := by
  cases h <;> rfl

/-- The opcodes that push small constants. -/
theorem small_opcode {m : Int} (h : -1 ≤ m) (h' : m ≤ 5) :
    UInt8.ofNat (Op.iconst0.toNat + m).toNat ≠ Op.pop := by
  have : m = -1 ∨ m = 0 ∨ m = 1 ∨ m = 2 ∨ m = 3 ∨ m = 4 ∨ m = 5 := by omega
  rcases this with rfl | rfl | rfl | rfl | rfl | rfl | rfl <;> decide

theorem small_standard {m : Int} (h : -1 ≤ m) (h' : m ≤ 5) :
    (Insn.simple (UInt8.ofNat (Op.iconst0.toNat + m).toNat)).Standard := by
  have : m = -1 ∨ m = 0 ∨ m = 1 ∨ m = 2 ∨ m = 3 ∨ m = 4 ∨ m = 5 := by omega
  rcases this with rfl | rfl | rfl | rfl | rfl | rfl | rfl <;> decide

theorem Settles.pop (h : t.Settles q i) (hi : i = .simple Op.pop) : t = op Op.pop := by
  cases h with
  | plain => rw [hi]; rfl
  | small h h' =>
    injection hi with hi
    exact absurd hi (small_opcode h h')
  | _ => cases hi

theorem Settles.isHalf (h : t.Settles q i) (hi : i.isHalf = true) : t.isHalf = true := by
  cases h <;> first | exact hi | rfl

/-- Clear templates settle to instructions without markers. -/
theorem unmarked_of_clear (h : SettleAll q ts xs) (hclear : clear half ts = true)
    (hhalf : half' = true → half = true) : unmarked half' xs = true := by
  induction h generalizing half half' with
  | nil => rfl
  | @cons t i ts xs ht _ ih =>
    rw [clear] at hclear
    rw [unmarked, ht.isPseudo]
    split
    · next hpseudo =>
      rw [if_pos hpseudo] at hclear
      exact ih hclear hhalf
    · next hpseudo =>
      rw [if_neg hpseudo, Bool.and_eq_true, Bool.not_eq_true'] at hclear
      rw [ih hclear.2 ht.isHalf, Bool.and_true, Bool.not_eq_true', Bool.eq_false_iff]
      intro hpop
      rw [Bool.and_eq_true, beq_iff_eq] at hpop
      exact absurd hclear.1 (by rw [hhalf hpop.1, ht.pop hpop.2]; decide)

/-- Calm templates settle to quiet instructions. -/
theorem quiet_of_calm (h : SettleAll q ts xs) (hcalm : ∀ t ∈ ts, t.calm = true) : Quiet q (wording xs) := by
  induction h with
  | nil => exact fun _ hi => nomatch hi
  | @cons t i ts xs ht _ ih =>
    rw [wording_cons]
    refine Quiet.append ?_ (ih fun t ht => hcalm t (List.mem_cons_of_mem _ ht))
    intro x hx
    have hcalm := hcalm t (List.mem_cons_self ..)
    cases ht with
    | plain i =>
      cases i with
      | line _ | method _ _ => cases hcalm
      | label _ => cases hx
      | _ => cases List.mem_singleton.1 hx; exact ⟨rfl, fun _ _ he => nomatch he⟩
    | method hm =>
      cases List.mem_singleton.1 hx
      simp only [calm, Bool.and_eq_true, bne_iff_ne] at hcalm
      exact ⟨rfl, fun _ _ he => by cases he; exact ⟨_, hm, hcalm.2⟩⟩
    | _ => cases List.mem_singleton.1 hx; exact ⟨rfl, fun _ _ he => nomatch he⟩

/-- Calm templates settle to instructions that a reader can answer. -/
theorem Settles.standard (h : t.Settles q i) (hcalm : t.calm = true) : i.Standard := by
  cases h with
  | plain i =>
    cases i with
    | line _ => trivial
    | method _ _ => cases hcalm
    | _ => exact of_decide_eq_true hcalm
  | small h h' => exact small_standard h h'
  | byte h h' => exact .inl ⟨by decide, h, h'⟩
  | short h h' => exact .inr (.inl ⟨by decide, h, h'⟩)
  | integer | string => trivial
  | type => exact eq_of_beq hcalm
  | field => exact eq_of_beq hcalm
  | method =>
    simp only [calm, Bool.and_eq_true, beq_iff_eq] at hcalm
    exact .inl hcalm.1

/-- Templates that send one report. -/
structure Dispatches (s : WeaveSite) (k : EventKind) (ts : List Template) : Prop where
  parts : ∃ u v, ts = u ++ (s.operands k ++ Block.invocation k :: v) ∧ (∀ t ∈ u, t.calm = true) ∧
    ∀ t ∈ v, t.calm = true
  clear : clear false ts = true

/-- Between markers they settle to a report. -/
theorem Dispatches.reported {s : WeaveSite} {k : EventKind} (h : Dispatches s k ts)
    (hxs : SettleAll q (Marker.around ts) xs) : Reported q s k (wording xs) := by
  obtain ⟨o, m, rfl, ho, hm⟩ := forall₂_append_left hxs
  obtain ⟨m, c, rfl, hm, hc⟩ := forall₂_append_left hm
  have hunmarked := unmarked_of_clear hm h.clear id
  obtain ⟨u, v, rfl, hu, hv⟩ := h.parts
  obtain ⟨mu, m, rfl, hmu, hm⟩ := forall₂_append_left hm
  obtain ⟨mo, m, rfl, hmo, hm⟩ := forall₂_append_left hm
  cases hm with
  | cons hcall hmv =>
    have hopened : o = opened := by
      cases ho with
      | cons h ho => cases h; cases ho with | cons h ho => cases h; cases ho; rfl
    have hclosed : c = closed := by
      cases hc with
      | cons h hc => cases h; cases hc with | cons h hc => cases h; cases hc; rfl
    cases hcall with
    | method hcall =>
      rw [hopened, hclosed, wording_append, wording_append]
      rw [← unmarked_wording] at hunmarked
      rw [wording_append, wording_append, wording_cons, SettleAll.wording_of_pushes hmo (pushes_operands s k)]
        at hunmarked ⊢
      exact ⟨_, mo, _, _, rfl, hmo, hcall, quiet_of_calm hmu hu, quiet_of_calm hmv hv, hunmarked⟩

end Template

open Template

namespace JavaType

/-- Values are moved by the opcodes of their types. -/
theorem moves_calm (t : JavaType) (slot : UInt16) : (Template.var t.loadOpcode slot).calm = true ∧
    (Template.var t.storeOpcode slot).calm = true ∧ (Template.op t.returnOpcode).calm = true := by
  cases t <;> exact ⟨rfl, rfl, rfl⟩

theorem boxing_harmless (t : JavaType) : Harmless t.boxing := by
  cases t with
  | object _ | array _ => exact .nil
  | _ => exact .cons (by decide) (by decide) .nil

theorem duplicating_harmless (t : JavaType) : Harmless t.duplicating := by
  unfold duplicating
  split
  · exact .nil
  · exact .cons rfl (by decide) .nil
  · exact .cons rfl (by decide) .nil

/-- What turns objects into values: nothing, or a cast and a call; or the object is dropped. -/
theorem unboxing_cases (t : JavaType) : Harmless t.unboxing ∨ t.unboxing = [.op Op.pop] := by
  have cast : ∀ c : String, Harmless (if c = objectClass then [] else [.type Op.checkcast c]) := by
    intro c
    split
    · exact .nil
    · exact .cons rfl (by simp [Template.op]) .nil
  cases t with
  | void => exact .inr rfl
  | object _ | array _ => exact .inl (cast _)
  | _ => exact .inl (.cons rfl (by decide) (.cons (by decide) (by decide) .nil))

end JavaType

namespace WeaveSite

variable (s : WeaveSite)

theorem packing_harmless (parameters : List (JavaType × UInt16)) : Harmless (Block.packing parameters) := by
  refine .cons rfl (by simp [Template.op]) (.cons rfl (by decide) (.flatMap fun ⟨⟨t, slot⟩, _⟩ => ?_))
  refine .append (.append ?_ t.boxing_harmless) (.cons rfl (by decide) .nil)
  exact .cons rfl (by decide) (.cons rfl (by simp [Template.op])
    (.cons (t.moves_calm slot).1 (by simp [Template.var, Template.op]) .nil))

theorem unpacking_harmless (arguments : UInt16) (parameters : List (JavaType × UInt16)) :
    Harmless (Block.unpacking arguments parameters) := by
  refine .flatMap fun ⟨⟨t, slot⟩, i⟩ => ?_
  have store : Harmless [.var t.storeOpcode slot] := .cons (t.moves_calm slot).2.1
      (by simp [Template.var, Template.op]) .nil
  have load : Harmless [.var Op.aload arguments, .pushInt (Int32.ofNat i), .op Op.aaload] :=
    .cons rfl (by simp [Template.var, Template.op])
      (.cons rfl (by simp [Template.op]) (.cons rfl (by decide) .nil))
  rcases t.unboxing_cases with h | h
  · exact (load.append h).append store
  · show Harmless (_ ++ t.unboxing ++ _)
    rw [h]
    refine ⟨fun x hx => ?_, fun half => ?_⟩
    · simp at hx
      rcases hx with rfl | rfl | rfl | rfl | rfl <;> first | rfl | exact (t.moves_calm slot).2.1
    · simp [Template.clear, Template.isPseudo, Template.isHalf, Template.op, Template.var, Insn.isPseudo,
        Insn.isHalf]
      decide

theorem operands_harmless (k : EventKind) : Harmless (s.operands k) := by
  have address : Harmless (Block.address s.plan) :=
    .cons rfl (by simp [Template.op]) (.cons rfl (by simp [Template.op]) .nil)
  refine address.append ?_
  split
  · refine .cons rfl (by simp [Template.op]) (.cons rfl (by simp [Template.op])
      (.cons rfl (by simp [Template.op])
      (.cons rfl (by simp [Template.op]) (.cons ?_ ?_ .nil))))
    · split <;> rfl
    · split
      · decide
      · simp [Template.op, Template.var]
  · exact .nil

theorem returnOpcode_ne_pop (t : JavaType) : t.returnOpcode ≠ Op.pop := by
  cases t with
  | object _ | array _ => exact (by decide : Op.areturn ≠ Op.pop)
  | _ => decide

/-- The check of a verdict sends nothing and makes no marker. -/
theorem verdictCheck_harmless (t : JavaType) (l l' : Label) : Harmless (Block.verdictCheck t l l') := by
  have back : Harmless [.op t.returnOpcode, .place l, .pushInt Spy.stateThrow, .jump Op.ifIcmpne l',
      .field Op.getfield Spy.valueField, .type Op.checkcast throwableClass, .op Op.athrow, .place l',
      .op Op.pop] := by
    refine ⟨fun x hx => ?_, fun half => ?_⟩
    · simp at hx
      rcases hx with rfl | rfl | rfl | rfl | rfl | rfl | rfl | rfl | rfl <;>
        first | rfl | exact (t.moves_calm 0).2.2
    · simp [Template.clear, Template.isPseudo, Template.isHalf, Template.op, Template.place, Template.jump,
        Insn.isPseudo, Insn.isHalf, returnOpcode_ne_pop]
      decide
  refine ⟨fun x hx => ?_, fun half => ?_⟩
  · rcases List.mem_append.1 hx with hx | hx
    · rcases List.mem_append.1 hx with hx | hx
      · simp at hx
        rcases hx with rfl | rfl | rfl | rfl | rfl | rfl | rfl <;> rfl
      · rcases t.unboxing_cases with h | h
        · exact h.calm x hx
        · rw [h] at hx
          cases List.mem_singleton.1 hx
          rfl
    · exact back.calm x hx
  · rw [Block.verdictCheck, List.append_assoc]
    refine clear_behind [.op Op.dup, .field Op.getfield Spy.stateField, .op Op.dup,
      .pushInt Spy.stateReturn, .jump Op.ifIcmpne l, .op Op.pop] rfl rfl ?_ ?_
    · cases half <;> rfl
    · rcases t.unboxing_cases with h | h
      · exact (h.append back).clear false
      · rw [h]
        exact clear_behind [] rfl rfl rfl (back.clear false)

/-- A dispatch with something harmless around it. -/
theorem dispatches_of_harmless {k : EventKind} {u v : List Template} (hu : Harmless u) (hv : Harmless v) :
    Dispatches s k (u ++ (s.operands k ++ Block.invocation k :: v)) where
  parts := ⟨u, v, rfl, hu.calm, hv.calm⟩
  clear := by
    rw [← List.append_assoc]
    have send : Block.invocation k ≠ .op Op.pop := by simp [Block.invocation, Template.op]
    refine clear_behind _ rfl rfl ?_ (hv.clear false)
    refine clear_append ((hu.append (s.operands_harmless k)).clear false) fun half => ?_
    rw [Template.clear, if_neg (by simp [Block.invocation, Template.isPseudo]), beq_eq_false_iff_ne.2 send,
      Bool.and_false]
    rfl

/-- A report with its own operands. -/
theorem report_dispatches {k : EventKind} (hk : k ≠ .before) {u : List Template} (hu : Harmless u) (l : Label) :
    Dispatches s k (u ++ s.report k l) := by
  have h := s.dispatches_of_harmless (k := k) hu (verdictCheck_harmless s.returnType l (l + 1))
  rw [operands, if_neg hk, List.append_nil] at h
  simpa [report] using h

/-- Every report is written between markers and sends one event. -/
theorem returnReport_dispatches (l : Label) : ∃ ts, s.returnReport l = Marker.around ts ∧
    Dispatches s .return ts :=
  ⟨_, rfl, s.report_dispatches (by decide)
    (s.returnType.duplicating_harmless.append s.returnType.boxing_harmless) l⟩

theorem lineReport_dispatches (n : UInt16) (l : Label) :
    ∃ ts, s.lineReport n l = Marker.around ts ∧ Dispatches s .line ts :=
  ⟨_, rfl, s.report_dispatches (by decide) (.cons rfl (by simp [Template.op]) .nil) l⟩

theorem callBeforeReport_dispatches (line : Int32) (m : MemberRef) (l : Label) :
    ∃ ts, s.callBeforeReport line m l = Marker.around ts ∧ Dispatches s .callBefore ts :=
  ⟨_, rfl, s.report_dispatches (by decide) (.cons rfl (by simp [Template.op]) (.cons rfl (by simp [Template.op])
    (.cons rfl (by simp [Template.op]) (.cons rfl (by simp [Template.op]) .nil)))) l⟩

theorem callReturnReport_dispatches (hwants : s.wants .callReturn = true) (l : Label) :
    ∃ ts, s.callReturnReport l = Marker.around ts ∧ Dispatches s .callReturn ts :=
  ⟨s.report .callReturn l, if_pos hwants, s.report_dispatches (by decide) .nil l⟩

theorem callThrowsReport_dispatches (l : Label) :
    ∃ ts, s.callThrowsReport l = Marker.around ts ∧ Dispatches s .callThrows ts :=
  ⟨_, rfl, s.report_dispatches (by decide) (.cons rfl (by decide) (.cons (by decide) (by decide)
    (.cons (by decide) (by decide) .nil))) l⟩

theorem startReport_dispatches (arguments : UInt16) (l : Label) :
    ∃ ts, s.startReport arguments l = Marker.around ts ∧ Dispatches s .before ts := by
  refine ⟨_, rfl, ?_⟩
  have store : Harmless [.var Op.astore arguments, .var Op.aload arguments] :=
    .cons rfl (by simp [Template.var, Template.op]) (.cons rfl (by simp [Template.var, Template.op]) .nil)
  have h := s.dispatches_of_harmless (k := .before) ((packing_harmless s.parameters).append store)
    ((verdictCheck_harmless s.returnType l (l + 1)).append (unpacking_harmless arguments s.parameters))
  rw [operands, if_pos rfl] at h
  simpa [Block.beforeDispatch] using h

/-- The handler of the method reports between markers, and throws again behind them. -/
theorem throwsReport_dispatches (thrown : UInt16) (l : Label) :
    ∃ ts, s.throwsReport thrown l = Marker.around ts ++ [Template.var Op.aload thrown, .op Op.athrow] ∧
      Dispatches s .throws ts := by
  refine ⟨[Template.var Op.astore thrown, .var Op.aload thrown] ++ s.report .throws l, ?_, ?_⟩
  · simp [throwsReport, Marker.around]
  · exact s.report_dispatches (by decide)
      (.cons rfl (by simp [Template.var, Template.op]) (.cons rfl (by simp [Template.var, Template.op]) .nil)) l

/-- A report settles to instructions that a reader can answer. -/
theorem standard_of_dispatches {q : Pool} {k : EventKind} {ts : List Template} {xs : List Insn}
    (h : Dispatches s k ts) (hxs : SettleAll q (Marker.around ts) xs) : ∀ x ∈ xs, x.Standard := by
  obtain ⟨u, v, rfl, hu, hv⟩ := h.parts
  intro x hx
  obtain ⟨t, ht, hsettles⟩ := (mem_forall₂ hxs).2 x hx
  by_cases hcall : t = Block.invocation k
  · subst hcall
    cases hsettles
    exact (by decide : (Insn.method Op.invokestatic 0).Standard)
  refine hsettles.standard ?_
  have hmarkers : ∀ t ∈ Marker.opening ++ Marker.closing, t.calm = true := by decide
  simp only [Marker.around, List.mem_append] at ht hmarkers
  rw [List.mem_cons] at ht
  rcases ht with ht | (ht | ht | ht | ht) | ht
  · exact hmarkers t (.inl ht)
  · exact hu t ht
  · exact (s.operands_harmless k).calm t ht
  · exact absurd ht hcall
  · exact hv t ht
  · exact hmarkers t (.inr ht)

end WeaveSite

end Interpose
