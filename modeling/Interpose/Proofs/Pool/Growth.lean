import Interpose.ClassFile.Constant
import Interpose.Proofs.Outcome
/-!
# Growing pools

A pool that only gains constants answers as before at every slot that was in use. `Pool.Within p q`
says that `q` answers like `p` wherever `p` has an answer; everything that is read through the pool
then stays as it was.
-/

namespace Interpose

namespace Pool

/-- Every slot that holds a constant in the first pool holds it in the second. -/
def Within (p q : Pool) : Prop :=
  ∀ i c, p.get i = .ok c → q.get i = .ok c

theorem Within.refl (p : Pool) : Within p p := fun _ _ h => h

theorem Within.trans {p q r : Pool} (h1 : Within p q) (h2 : Within q r) : Within p r :=
  fun i c h => h2 i c (h1 i c h)

section Reading

variable {p q : Pool} (h : Within p q)
include h

theorem Within.getUtf8 {i : UInt16} {s : String} (hi : p.getUtf8 i = .ok s) :
    q.getUtf8 i = .ok s := by
  obtain ⟨c, hc, hs⟩ := bind_eq_ok.1 hi
  exact bind_eq_ok.2 ⟨c, h i c hc, hs⟩

theorem Within.className {i : UInt16} {s : String} (hi : p.className i = .ok s) :
    q.className i = .ok s := by
  obtain ⟨c, hc, hs⟩ := bind_eq_ok.1 hi
  refine bind_eq_ok.2 ⟨c, h i c hc, ?_⟩
  cases c with
  | classRef name => exact h.getUtf8 hs
  | _ => cases hs

theorem Within.nameAndType {i : UInt16} {s : String × String} (hi : p.nameAndType i = .ok s) :
    q.nameAndType i = .ok s := by
  obtain ⟨c, hc, hs⟩ := bind_eq_ok.1 hi
  refine bind_eq_ok.2 ⟨c, h i c hc, ?_⟩
  cases c with
  | nameAndType name descriptor =>
    obtain ⟨n, hn, hs⟩ := bind_eq_ok.1 hs
    obtain ⟨d, hd, hs⟩ := bind_eq_ok.1 hs
    exact bind_eq_ok.2 ⟨n, h.getUtf8 hn, bind_eq_ok.2 ⟨d, h.getUtf8 hd, hs⟩⟩
  | _ => cases hs

theorem Within.memberRef {i : UInt16} {m : MemberRef} (hi : p.memberRef i = .ok m) :
    q.memberRef i = .ok m := by
  obtain ⟨c, hc, hm⟩ := bind_eq_ok.1 hi
  refine bind_eq_ok.2 ⟨c, h i c hc, ?_⟩
  cases c with
  | fieldRef owner nat | methodRef owner nat | interfaceMethodRef owner nat =>
    obtain ⟨n, hn, hm⟩ := bind_eq_ok.1 hm
    obtain ⟨d, hd, hm⟩ := bind_eq_ok.1 hm
    exact bind_eq_ok.2 ⟨n, h.className hn, bind_eq_ok.2 ⟨d, h.nameAndType hd, hm⟩⟩
  | _ => cases hm

end Reading

end Pool

end Interpose
