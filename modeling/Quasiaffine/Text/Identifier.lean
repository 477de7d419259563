import Quasiaffine.Text.IdentifierTable

set_option autoImplicit false

namespace Quasiaffine.Text

def isDigit (c : Char) : Bool := '0' ≤ c && c ≤ '9'

def isLetter (c : Char) : Bool := ('a' ≤ c && c ≤ 'z') || ('A' ≤ c && c ≤ 'Z')

def inRanges (ranges : Array (Nat × Nat)) (n : Nat) : Bool :=
  ranges.any fun range => range.1 ≤ n && n ≤ range.2

/-- A letter, a letter-like character of any script, or an underscore. -/
def isIdentifierStart (c : Char) : Bool :=
  if c.toNat < 128 then isLetter c || c == '_' else inRanges identifierStartRanges c.toNat

def isIdentifierContinue (c : Char) : Bool :=
  isIdentifierStart c
    || if c.toNat < 128 then isDigit c else inRanges identifierContinueRanges c.toNat

theorem isIdentifierContinue_of_start {c : Char} (h : isIdentifierStart c = true) :
    isIdentifierContinue c = true := by
  simp [isIdentifierContinue, h]

theorem isIdentifierContinue_of_digit {c : Char} (h : isDigit c = true) :
    isIdentifierContinue c = true := by
  have hc : c.toNat < 128 := by
    simp only [isDigit, Bool.and_eq_true, decide_eq_true_eq, Char.le_def] at h
    have h2 : c.val.toNat ≤ ('9' : Char).val.toNat := UInt32.le_iff_toNat_le.1 h.2
    have h3 : ('9' : Char).val.toNat = 57 := rfl
    have h4 : c.toNat = c.val.toNat := rfl
    omega
  simp [isIdentifierContinue, hc, h]

end Quasiaffine.Text
