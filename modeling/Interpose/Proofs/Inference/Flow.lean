import Interpose.Proofs.Inference.Construction
import Interpose.Proofs.Inference.Result
import Interpose.Proofs.Pieces
/-!
# Where control goes

Control goes from instruction to instruction of a body, and the object under construction goes with it
(`Flows`). Type inference agrees with every path (`comes_agrees`).
-/

namespace Interpose

/-! ## Paths -/

inductive Body.Leads (b : Body) (i j : Nat) : Prop
  | next {insn : Insn} : b.insns[i]? = some insn → insn.isTerminal = false → j = i + 1 → b.Leads i j
  | jump {insn : Insn} {l : Label} : b.insns[i]? = some insn → l ∈ insn.targets →
    LastPlace b.insns l j → b.Leads i j
  | thrown {insn : Insn} {t : TryCatch} : b.insns[i]? = some insn → insn.isPseudo = false →
    t ∈ b.tryCatch → t.Covers b.insns i → LastPlace b.insns t.handler j → b.Leads i j

inductive Body.Reached (b : Body) : Nat → Prop
  | entry : b.Reached 0
  | step {i j : Nat} : b.Reached i → b.Leads i j → b.Reached j

/-- Control carries a property of places from each to the next. -/
def Body.Conveys (b : Body) (R : Nat → Prop) : Prop :=
  ∀ i j, R i → b.Leads i j → R j

theorem Body.conveys_reached (b : Body) : b.Conveys b.Reached := fun _ _ => .step

/-- Control goes from one instruction to another, with the object under construction where it is. -/
inductive Flows (pool : Pool) (b : Body) : Nat × Held → Nat × Held → Prop
  | next {i : Nat} {insn : Insn} {w : Held} : b.insns[i]? = some insn → insn.isTerminal = false →
    Flows pool b (i, w) (i + 1, w.after pool insn)
  | jump {i j : Nat} {insn : Insn} {l : Label} {w : Held} : b.insns[i]? = some insn →
    l ∈ insn.targets → LastPlace b.insns l j → Flows pool b (i, w) (j, w.after pool insn)
  | thrown {i j : Nat} {insn : Insn} {t : TryCatch} {w : Held} : b.insns[i]? = some insn →
    insn.isPseudo = false → t ∈ b.tryCatch → t.Covers b.insns i → LastPlace b.insns t.handler j →
    Flows pool b (i, w) (j, w.thrown)

/-- Control comes from one instruction to another in any number of steps. -/
abbrev Comes (pool : Pool) (b : Body) : Nat × Held → Nat × Held → Prop :=
  Relation.ReflTransGen (Flows pool b)

variable {pool p q : Pool} {b : Body} {i j : Nat} {w w' : Held}

theorem Flows.leads (h : Flows pool b (i, w) (j, w')) : b.Leads i j := by
  cases h with
  | next hi ht => exact .next hi ht rfl
  | jump hi hl hj => exact .jump hi hl hj
  | thrown hi hr ht hc hj => exact .thrown hi hr ht hc hj

theorem Body.Leads.flows (h : b.Leads i j) (pool : Pool) (w : Held) :
    ∃ w', Flows pool b (i, w) (j, w') := by
  cases h with
  | next hi ht hj =>
    rw [hj]
    exact ⟨_, .next hi ht⟩
  | jump hi hl hj => exact ⟨_, .jump hi hl hj⟩
  | thrown hi hr ht hc hj => exact ⟨_, .thrown hi hr ht hc hj⟩

/-- Control goes on from marks to what takes bytes, and carries there what it has. -/
theorem Body.Conveys.exists_real {R : Nat → Prop} (hR : b.Conveys R) (hi : R i) (hij : i ≤ j) {insn : Insn}
    (hj : b.insns[j]? = some insn) (hreal : insn.isPseudo = false) :
    ∃ k insn, i ≤ k ∧ k ≤ j ∧ b.insns[k]? = some insn ∧ insn.isPseudo = false ∧ R k := by
  obtain ⟨n, rfl⟩ := Nat.exists_eq_add_of_le hij
  induction n generalizing i with
  | zero => exact ⟨i, insn, Nat.le_refl _, Nat.le_refl _, hj, hreal, hi⟩
  | succ n ih =>
    have hlt := (List.getElem?_eq_some_iff.1 hj).1
    obtain ⟨first, hfirst⟩ : ∃ first, b.insns[i]? = some first :=
      ⟨_, List.getElem?_eq_getElem (Nat.lt_of_le_of_lt hij hlt)⟩
    cases hpseudo : first.isPseudo with
    | false => exact ⟨i, first, Nat.le_refl _, hij, hfirst, hpseudo, hi⟩
    | true =>
      have hshift : i + 1 + n = i + (n + 1) := by omega
      obtain ⟨k, insn', hlo, hhi, hk⟩ :=
        ih (hR _ _ hi (.next hfirst (Insn.isTerminal_pseudo hpseudo) rfl)) (Nat.le_add_right _ _)
          (hshift ▸ hj)
      exact ⟨k, insn', Nat.le_of_succ_le hlo, hshift ▸ hhi, hk⟩

/-- Code that control does not leave at its end has something that takes bytes behind whatever control
reaches. -/
theorem Body.Reached.real_behind (hin : ∀ j, b.Reached j → j < b.insns.length) (hi : b.Reached i) :
    ∃ k insn, i ≤ k ∧ b.insns[k]? = some insn ∧ insn.isPseudo = false := by
  by_contra hnone
  simp only [not_exists, not_and, Bool.not_eq_false] at hnone
  -- from mark to mark, control would reach everything behind
  have hall : ∀ n, b.Reached (i + n) := by
    intro n
    induction n with
    | zero => exact hi
    | succ n ih =>
      have hat := List.getElem?_eq_getElem (hin _ ih)
      exact .step ih (.next hat (Insn.isTerminal_pseudo (hnone _ _ (Nat.le_add_right i n) hat)) rfl)
  have := hin _ (hall b.insns.length)
  omega

theorem Body.Reached.comes (h : b.Reached i) (pool : Pool) (w : Held) :
    ∃ w', Comes pool b (0, w) (i, w') := by
  induction h with
  | entry => exact ⟨w, .refl⟩
  | step _ hl ih =>
    obtain ⟨w', hw'⟩ := ih
    obtain ⟨w'', hw''⟩ := hl.flows pool w'
    exact ⟨w'', hw'.tail hw''⟩

theorem Body.Reached.of_comes {x y : Nat × Held} (hx : b.Reached x.1) (h : Comes pool b x y) :
    b.Reached y.1 := by
  induction h with
  | refl => exact hx
  | tail _ hstep ih => exact .step ih hstep.leads

/-- Nothing comes from nothing. -/
theorem Held.Free.comes {x y : Nat × Held} (hx : x.2.Free) (h : Comes pool b x y) : y.2.Free := by
  induction h with
  | refl => exact hx
  | tail _ hstep ih =>
    cases hstep with
    | next => exact ih.after pool _
    | jump => exact ih.after pool _
    | thrown => exact ih.thrown

/-! ## Frames -/

/-- The types are the same, but for the classes of objects. -/
def VType.Alike (v w : VType) : Prop :=
  v = w ∨ (v.isObject = true ∧ w.isObject = true)

namespace VType

theorem Alike.refl (v : VType) : v.Alike v := .inl rfl

theorem Alike.trans {u v w : VType} (h : u.Alike v) (h' : v.Alike w) : u.Alike w := by
  rcases h with rfl | ⟨hu, hv⟩
  · exact h'
  · rcases h' with rfl | ⟨-, hw⟩
    · exact .inr ⟨hu, hv⟩
    · exact .inr ⟨hu, hw⟩

theorem isThis_of_isObject {v : VType} (h : v.isObject = true) : v.isThis = false := by
  cases v with
  | uninitializedThis => cases h
  | _ => rfl

theorem Alike.isThis {v w : VType} (h : v.Alike w) : v.isThis = w.isThis := by
  rcases h with rfl | ⟨hv, hw⟩
  · rfl
  · rw [isThis_of_isObject hv, isThis_of_isObject hw]

theorem Alike.top {w : VType} (h : VType.top.Alike w) : w = .top := by
  rcases h with rfl | ⟨hv, -⟩
  · rfl
  · cases hv

end VType

theorem mergeSlot_alike {h : Hierarchy} {a b c : VType} (hm : mergeSlot h a b = some c) :
    a.Alike c ∧ b.Alike c := by
  rcases mergeSlot_cases h hm with ⟨rfl, rfl⟩ | ⟨rfl, rfl, x, rfl⟩ | ⟨rfl, rfl, x, rfl⟩ |
    ⟨x, y, rfl, rfl, rfl⟩
  · exact ⟨.refl _, .refl _⟩
  · exact ⟨.inr ⟨rfl, rfl⟩, .refl _⟩
  · exact ⟨.refl _, .inr ⟨rfl, rfl⟩⟩
  · exact ⟨.inr ⟨rfl, rfl⟩, .inr ⟨rfl, rfl⟩⟩

namespace Frame

/-- A frame that comes to another one is the same up to classes and to local variables that are lost. -/
abbrev Like (g f : Frame) : Prop :=
  Under VType.Alike g f

theorem Like.refl (f : Frame) : f.Like f :=
  ⟨List.forall₂_same.2 fun v _ => .refl v, .refl VType.Alike.refl f.locals⟩

theorem Like.trans {f g k : Frame} (h : f.Like g) (h' : g.Like k) : f.Like k := by
  refine ⟨?_, fun n v hv => ?_⟩
  · have first := h.stack
    have second := h'.stack
    generalize f.stack = fs, g.stack = gs, k.stack = ks at first second
    induction first generalizing ks with
    | nil =>
      cases second
      exact .nil
    | cons huv _ ih =>
      cases second with
      | cons hvw rest => exact .cons (huv.trans hvw) (ih _ rest)
  · obtain ⟨u, hu, huv⟩ := h'.locals n v hv
    obtain ⟨t, ht, htu⟩ := h.locals n u hu
    refine ⟨t, ht, ?_⟩
    rcases huv with rfl | huv
    · exact .inl rfl
    · rcases htu with rfl | htu
      · exact .inl huv.top
      · exact .inr (htu.trans huv)

theorem merge_like {h : Hierarchy} {i : Nat} {f g k : Frame} (hm : f.merge h i g = .ok k) :
    f.Like k ∧ g.Like k := by
  obtain ⟨hs, hl⟩ := merge_eq_ok.1 hm
  obtain ⟨hlength, hlength', hall⟩ := mergeStack_eq_some hs
  have slots : ∀ (n : Nat) (a b c : VType), f.stack[n]? = some a → g.stack[n]? = some b →
      k.stack[n]? = some c → a.Alike c ∧ b.Alike c := by
    intro n a b c ha hb hc
    obtain ⟨c', hc', hmerge⟩ := hall n a b ha hb
    rw [hc] at hc'
    cases hc'
    exact mergeSlot_alike hmerge
  refine ⟨⟨List.forall₂_iff_get.2 ⟨hlength'.symm, fun n hn hn' => ?_⟩, fun n v hv => ?_⟩,
    ⟨List.forall₂_iff_get.2 ⟨by omega, fun n hn hn' => ?_⟩, fun n v hv => ?_⟩⟩
  · exact (slots n _ _ _ (List.getElem?_eq_getElem hn) (List.getElem?_eq_getElem (by omega))
      (List.getElem?_eq_getElem hn')).1
  · rw [hl] at hv
    obtain ⟨a, b, ha, -, rfl⟩ := getElem?_mergeLocals.1 hv
    refine ⟨a, ha, ?_⟩
    cases hmerge : mergeSlot h a b with
    | none => exact .inl rfl
    | some c => exact .inr (mergeSlot_alike hmerge).1
  · exact (slots n _ _ _ (List.getElem?_eq_getElem (by omega)) (List.getElem?_eq_getElem hn)
      (List.getElem?_eq_getElem hn')).2
  · rw [hl] at hv
    obtain ⟨a, b, -, hb, rfl⟩ := getElem?_mergeLocals.1 hv
    refine ⟨b, hb, ?_⟩
    cases hmerge : mergeSlot h a b with
    | none => exact .inl rfl
    | some c => exact .inr (mergeSlot_alike hmerge).2

theorem refineSlots_alike (vs hints : List VType) :
    List.Forall₂ VType.Alike vs (refineSlots vs hints) := by
  fun_induction refineSlots vs hints with
  | case1 v vs hint hints ih =>
    refine .cons ?_ ih
    unfold refineSlot
    split
    · split
      · exact .inr ⟨‹_›, rfl⟩
      · exact .refl v
    · exact .refl v
  | case2 vs => exact List.forall₂_same.2 fun v _ => .refl v

theorem refine_like (f declared : Frame) : f.Like (f.refine declared) := by
  constructor
  · unfold refine
    simp only
    split
    · exact refineSlots_alike _ _
    · exact List.forall₂_same.2 fun v _ => .refl v
  · intro n v hv
    obtain ⟨u, hu, huv⟩ := forall₂_getElem? (refineSlots_alike f.locals declared.locals).flip hv
    exact ⟨u, hu, .inr huv⟩

end Frame

namespace Analysis

theorem arrive_like {m : Method} {t : Nat} {e : Option Frame} {g k : Frame}
    (h : m.arrive t e g = .ok k) : g.Like k ∧ ∀ f, e = some f → f.Like k := by
  obtain ⟨merged, hnone, hsome, hk⟩ := Method.arrive_cases h
  have hrefined : merged.Like k := by
    rcases hk with rfl | ⟨hint, rfl⟩
    · exact .refl k
    · exact merged.refine_like hint
  cases e with
  | none =>
    obtain rfl := hnone rfl
    refine ⟨hrefined, fun f he => ?_⟩
    cases he
  | some f =>
    obtain ⟨hf, hg⟩ := Frame.merge_like (hsome f rfl)
    refine ⟨hg.trans hrefined, fun f' he => ?_⟩
    cases he
    exact hf.trans hrefined

/-- Whatever the hierarchy and the declared frames are, merging loses nothing but classes and local
variables. -/
theorem Method.ascends_like (m : Method) : m.Ascends (fun f g => g.Like f) where
  refl := .refl
  trans h h' := h'.trans h
  first h := (arrive_like h).1
  further h := ⟨(arrive_like h).2 _ rfl, (arrive_like h).1⟩

end Analysis

theorem Held.Agrees.like {f g : Frame} (hw : w.Agrees g) (h : g.Like f) : w.Agrees f := by
  refine ⟨?_, fun n v hv => ?_⟩
  · rw [hw.stack]
    have hmap : List.Forall₂ (· = ·) (g.stack.map VType.isThis) (f.stack.map VType.isThis) :=
      List.forall₂_map_left_iff.2 (List.forall₂_map_right_iff.2 (h.stack.imp fun _ _ h => h.isThis))
    exact List.forall₂_eq_eq_eq ▸ hmap
  · obtain ⟨u, hu, huv⟩ := h.locals n v hv
    rcases huv with rfl | huv
    · exact .inl rfl
    · rcases hw.locals n u hu with rfl | hlocal
      · exact .inl huv.top
      · exact .inr (hlocal.trans huv.isThis)

def Held.initial (context : MethodContext) : Held where
  locals n := n = 0 && !context.isStatic && context.startsUninitialized
  stack := []

theorem Held.agrees_initial (context : MethodContext) :
    (Held.initial context).Agrees (initialFrame context) := by
  have parameters : ∀ (n : Nat) (v : VType),
      (context.descriptor.parameters.flatMap fun t => (VType.ofJava t).slots)[n]? = some v →
      v.isThis = false := by
    intro n v hv
    obtain ⟨t, -, ht⟩ := List.mem_flatMap.1 (List.mem_of_getElem? hv)
    have hmap := Machine.slots_isThis (Machine.ofJava_ne_this t)
    exact List.eq_of_mem_replicate (hmap ▸ List.mem_map_of_mem ht)
  refine ⟨rfl, fun n v hv => .inr ?_⟩
  simp only [initialFrame] at hv
  simp only [Held.initial]
  cases hs : context.isStatic with
  | true =>
    simp only [hs, if_true, List.nil_append] at hv
    simp [parameters n v hv]
  | false =>
    cases n with
    | zero =>
      cases hu : context.startsUninitialized with
      | true =>
        simp only [hs, hu, if_true, Bool.false_eq_true, if_false] at hv
        cases hv
        rfl
      | false =>
        simp only [hs, hu, Bool.false_eq_true, if_false] at hv
        cases hv
        rfl
    | succ n =>
      have hn : (context.descriptor.parameters.flatMap fun t => (VType.ofJava t).slots)[n]? = some v := by
        cases hu : context.startsUninitialized <;> simpa [hs, hu] using hv
      simp [parameters n v hn]

/-! ## Paths and frames -/

section Resolved

open Analysis

variable {context : MethodContext} {h : Hierarchy} {m : Method} (hof : m.Of b context p h)
include hof

theorem Analysis.Method.Of.leads_iff : Analysis.Leads m i j ↔ b.Leads i j := by
  constructor
  · rintro ⟨insn, hi, ⟨hr, g, hg, hcovers, rfl⟩ | ⟨l, hl, hj⟩ | ⟨ht, rfl⟩⟩
    · rw [hof.insn] at hi
      obtain ⟨t, ht, hstart, hstop, hhandler, -⟩ := (mem_forall₂ hof.guards).2 g hg
      exact .thrown hi hr ht ((Guard.covers_eq_true hstart hstop).1 hcovers) hhandler
    · rw [hof.insn] at hi
      exact .jump hi hl ((hof.positions l j).1 hj)
    · rw [hof.insn] at hi
      exact .next hi ht rfl
  · intro hl
    cases hl with
    | next hi ht hj => exact ⟨_, by rw [hof.insn, hi], .inr (.inr ⟨ht, hj⟩)⟩
    | jump hi hl hj => exact ⟨_, by rw [hof.insn, hi], .inr (.inl ⟨_, hl, (hof.positions _ _).2 hj⟩)⟩
    | thrown hi hr ht hc hj =>
      obtain ⟨g, hg, hstart, hstop, hhandler, -⟩ := (mem_forall₂ hof.guards).1 _ ht
      exact ⟨_, by rw [hof.insn, hi], .inl ⟨hr, g, hg, (Guard.covers_eq_true hstart hstop).2 hc,
        hj.unique hhandler⟩⟩

theorem Analysis.Method.Of.reached_iff : Analysis.Reached m i ↔ b.Reached i := by
  constructor
  · intro hi
    induction hi with
    | entry => exact .entry
    | step _ hl ih => exact .step ih (hof.leads_iff.1 hl)
  · intro hi
    induction hi with
    | entry => exact .entry
    | step _ hl ih => exact .step ih (hof.leads_iff.2 hl)

end Resolved

section Analyzed

open Analysis

variable {context : MethodContext} {h : Hierarchy} {m : Method} {a : Analysis}
  (hm : Method.ofBody b context p h = .ok m)
include hm

theorem reached_iff : Analysis.Reached m i ↔ b.Reached i :=
  (of_ofBody hm).reached_iff

omit hm in
/-- An instruction has a frame if and only if control reaches it. -/
theorem Analysis.analyze_frame_iff (ha : analyze b context p h = .ok a) {i : Nat} :
    (∃ f, a.frame i = some f) ↔ b.Reached i := by
  obtain ⟨m, -, hm, -⟩ := analyze_eq_ok ha
  exact (analyze_reached hm ha).trans (reached_iff hm)

/-- Frames agree with every path. -/
theorem comes_agrees (ha : analyze b context p h = .ok a) (hpq : p.Within q) {i : Nat} {w : Held}
    (hi : Comes q b (0, Held.initial context) (i, w)) : ∃ f, a.frame i = some f ∧ w.Agrees f := by
  have hof := of_ofBody hm
  obtain ⟨hdelivered, f0, h0, hf0⟩ := analyze_delivered hm ha m.ascends_like
  suffices all : ∀ y, Comes q b (0, Held.initial context) y → ∃ f, a.frame y.1 = some f ∧ y.2.Agrees f from
    all (i, w) hi
  intro y hy
  clear hi
  induction hy with
  | refl =>
    rw [hof.context] at hf0
    exact ⟨f0, h0, (Held.agrees_initial context).like hf0⟩
  | tail _ hstep ih =>
    obtain ⟨f, hf, hagrees⟩ := ih
    have here : ∀ {i : Nat} {insn : Insn}, b.insns[i]? = some insn → a.frame i = some f →
        ∃ ds after, m.deliveries i insn f = .ok (ds, after) ∧
          ∀ t ∈ ds, ∃ f', a.frame t.1 = some f' ∧ t.2.Like f' := by
      intro i insn hi hf
      exact hdelivered i f insn hf (by rw [hof.insn, hi])
    have behind : ∀ {i : Nat} {insn : Insn} {ds : List (Nat × Frame)} {after : Machine} {w : Held},
        m.deliveries i insn f = .ok (ds, after) → w.Agrees f → (w.after q insn).Agrees after.toFrame := by
      intro i insn ds after w hd hw
      have hexecute := (Method.deliveries_eq_ok.1 hd).1
      rw [hof.pool] at hexecute
      exact agrees_execute hpq (m := { f with peak := 0 }) hw hexecute
    cases hstep with
    | @next i insn w hi ht =>
      obtain ⟨ds, after, hd, hall⟩ := here hi hf
      obtain ⟨-, jumps, next, -, hnext, rfl⟩ := Method.deliveries_eq_ok.1 hd
      rcases hnext with ⟨ht', -⟩ | ⟨-, -, rfl⟩
      · rw [ht] at ht'
        cases ht'
      · obtain ⟨f', hf', hlike⟩ := hall _ (List.mem_append_right _ (List.mem_singleton_self _))
        exact ⟨f', hf', (behind hd hagrees).like hlike⟩
    | @jump i j insn l w hi hl hj =>
      obtain ⟨ds, after, hd, hall⟩ := here hi hf
      obtain ⟨-, jumps, next, hjumps, -, rfl⟩ := Method.deliveries_eq_ok.1 hd
      obtain ⟨t, ht, hplace, hframe⟩ := (mem_forall₂ hjumps).1 l hl
      obtain ⟨f', hf', hlike⟩ := hall t
        (List.mem_append_left _ (List.mem_append_right _ ht))
      rw [hframe] at hlike
      rw [((hof.positions _ _).1 hplace).unique hj] at hf'
      exact ⟨f', hf', (behind hd hagrees).like hlike⟩
    | @thrown i j insn t w hi hr ht hc hj =>
      obtain ⟨ds, after, hd, hall⟩ := here hi hf
      obtain ⟨-, jumps, next, -, -, rfl⟩ := Method.deliveries_eq_ok.1 hd
      obtain ⟨g, hg, hstart, hstop, hhandler, -⟩ := (mem_forall₂ hof.guards).1 _ ht
      have hcovers := (Guard.covers_eq_true hstart hstop).2 hc
      obtain ⟨f', hf', hlike⟩ := hall (g.handler.target, ⟨f.locals, [.object g.handler.caught]⟩)
        (List.mem_append_left _ (List.mem_append_left _
          (Method.mem_toHandlers.2 ⟨hr, g, hg, hcovers, rfl⟩)))
      rw [hhandler.unique hj] at hf'
      have hthrown : w.thrown.Agrees ⟨f.locals, [.object g.handler.caught]⟩ := ⟨rfl, hagrees.locals⟩
      exact ⟨f', hf', hthrown.like hlike⟩

end Analyzed

end Interpose
