import Quasiaffine.Json.Basic

set_option autoImplicit false

namespace Quasiaffine

namespace Words

def base : Nat := 4294967296

def ofNat (n : Nat) : List Nat :=
  if n = 0 then [] else n % base :: ofNat (n / base)
termination_by n
decreasing_by exact Nat.div_lt_self (Nat.pos_of_ne_zero ‹_›) (by decide)

def toNat : List Nat → Nat
  | [] => 0
  | w :: ws => w + base * toNat ws

theorem toNat_ofNat (n : Nat) : toNat (ofNat n) = n := by
  fun_induction ofNat n with
  | case1 => rfl
  | case2 n _ ih => rw [toNat, ih, Nat.mod_add_div]

theorem lt_base_of_mem_ofNat {n w : Nat} (h : w ∈ ofNat n) : w < base := by
  fun_induction ofNat n with
  | case1 => simp at h
  | case2 n _ ih =>
    rcases List.mem_cons.1 h with rfl | h
    · exact Nat.mod_lt _ (by decide)
    · exact ih h

end Words

namespace Json

def ofInt (n : Int) : Json :=
  list [integer n.sign, list ((Words.ofNat n.natAbs).map fun w : Nat => integer w)]

/-- Leading zeros do no harm, and the sign 0 makes any words zero. -/
def int? : Json → Option Int
  | list [integer sign, words] => do
    let words ← words.elements? (natural? Words.base)
    if sign = -1 ∨ sign = 0 ∨ sign = 1 then some (sign * Words.toNat words) else none
  | _ => none

theorem int?_ofInt (n : Int) : int? (ofInt n) = some n := by
  have words : elements? (natural? Words.base)
      (list ((Words.ofNat n.natAbs).map fun w : Nat => integer w)) = some (Words.ofNat n.natAbs) :=
    elements?_map fun w hw => natural?_natCast (Words.lt_base_of_mem_ofNat hw)
  have sign : n.sign = -1 ∨ n.sign = 0 ∨ n.sign = 1 := by
    rcases Int.lt_trichotomy n 0 with h | h | h
    · exact Or.inl (Int.sign_eq_neg_one_of_neg h)
    · exact Or.inr (Or.inl (by rw [h]; rfl))
    · exact Or.inr (Or.inr (Int.sign_eq_one_of_pos h))
  simp only [ofInt, int?, words, Option.bind_eq_bind, Option.bind_some, sign, if_true,
    Words.toNat_ofNat, Int.sign_mul_natAbs]

end Json

end Quasiaffine
