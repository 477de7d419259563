import Quasiaffine.Proofs.Piecewise.Regular
import Quasiaffine.Proofs.Reader.Keeps
import Quasiaffine.Proofs.Reader.Clause
import Quasiaffine.Proofs.Token.Scanning

set_option autoImplicit false

namespace Quasiaffine

/-- What a token means. Only the values of a function and the points of a set that was read before
count. -/
inductive Symbol where
  | number (c : Int)
  | name (x : String)
  | word (w : Keyword)
  | mark (m : Mark)
  | string
  | value (v : Value)
  | points (set : Set Row)
  | finish

namespace Symbol

def kind : Symbol → TokenKind
  | number _ => .number
  | name _ => .identifier
  | word w => .keyword w
  | mark m => .mark m
  | string => .string
  | value _ => .expression
  | points _ => .condition
  | finish => .endOfInput

def IsPlaceholder (l : Symbol) : Prop := l.kind = .expression ∨ l.kind = .condition

def comparison? : Symbol → Option Comparison
  | mark .eq => some .eq
  | mark .ne => some .ne
  | mark .le => some .le
  | mark .lt => some .lt
  | mark .ge => some .ge
  | mark .gt => some .gt
  | _ => none

def isStop : Symbol → Bool
  | mark .rightBrace | mark .semicolon => true
  | _ => false

variable {l : Symbol}

theorem kind_eq_mark_iff {m : Mark} : l.kind = .mark m ↔ l = .mark m := by
  cases l <;> simp [kind]

theorem kind_eq_keyword_iff {w : Keyword} : l.kind = .keyword w ↔ l = .word w := by
  cases l <;> simp [kind]

theorem isStop_iff : l.isStop = true ↔ l = .mark .rightBrace ∨ l = .mark .semicolon := by
  unfold isStop
  split <;> simp_all

end Symbol

noncomputable def Lexeme.symbol : Lexeme → Symbol
  | number c => .number c
  | string _ => .string
  | identifier x => .name x
  | keyword w _ => .word w
  | mark m => .mark m
  | expression f => .value f.valueAt
  | condition r => .points r.points
  | endOfInput => .finish

namespace Lexeme

variable {l : Lexeme}

@[simp] theorem kind_symbol (l : Lexeme) : l.symbol.kind = l.kind := by cases l <;> rfl

@[simp] theorem comparison?_symbol (l : Lexeme) : l.symbol.comparison? = l.comparison? := by
  cases l with
  | mark m => cases m <;> rfl
  | _ => rfl

end Lexeme

abbrev Symbols := Stream' Symbol

/-- What a text is read as from a cursor on. Where it cannot be read it counts as ended. -/
noncomputable def Cursor.symbols (c : Cursor) : Symbols :=
  (Stream'.iterate (fun c => (TokenStream.read c).2) c).map fun c =>
    match (TokenStream.read c).1 with
    | .ok t => t.lexeme.symbol
    | .error _ => .finish

noncomputable def TokenStream.symbols (s : TokenStream) : Symbols :=
  s.waiting.map (·.lexeme.symbol) ++ₛ s.cursor.symbols

def Relation.LiesOver (F : Frame) (r : Relation) : Prop := r.Describes F.space (· ∈ r)

/-- What a token that stands for something read before may be relied on for. -/
def Lexeme.Regular (F : Frame) : Lexeme → Prop
  | expression f => f.Regular
  | condition r => r.LiesOver F
  | _ => True

namespace TokenStream

variable {s t : TokenStream} {a : Token}

def Regular (F : Frame) (s : TokenStream) : Prop := ∀ t ∈ s.waiting, t.lexeme.Regular F

theorem scan_of_read {c : Cursor} (h : (read c).1 = .ok a) :
    (∃ v, a.lexeme = .number v) ∨ ∃ text, (Lexeme.scan text).result = .ok a.lexeme := by
  simp only [read] at h
  split at h
  · cases h
  · rename_i t cursor hc
    have ht : ∃ text, (Lexeme.scan text).result = .ok t.lexeme :=
      Cursor.scan_of_next (by rw [hc])
    split at h
    · split at h
      · split at h
        · simp only [power] at h
          split at h
          · cases h
          · split at h
            · obtain rfl := Except.ok.inj h
              exact .inl ⟨_, rfl⟩
            · cases h
        · exact .inr (Except.ok.inj h ▸ ht)
      · exact .inr (Except.ok.inj h ▸ ht)
    · exact .inr (Except.ok.inj h ▸ ht)

theorem not_isPlaceholder_read {c : Cursor} (h : (read c).1 = .ok a) :
    a.lexeme.isPlaceholder = false := by
  rcases scan_of_read h with ⟨v, hv⟩ | ⟨text, hscan⟩
  · rw [hv]
    rfl
  · exact Lexeme.not_isPlaceholder_scan hscan

theorem isName_of_read {c : Cursor} {x : String} (h : (read c).1 = .ok a)
    (hx : a.lexeme = .identifier x) : IsName x := by
  rcases scan_of_read h with ⟨v, hv⟩ | ⟨text, hscan⟩
  · rw [hx] at hv
    cases hv
  · exact Lexeme.isName_of_scan (hx ▸ hscan)

theorem symbols_of_next (h : next s = (.ok a, t)) : s.symbols = .cons a.lexeme.symbol t.symbols := by
  rw [next] at h
  split at h
  · rename_i a' waiting hw
    cases h
    rw [symbols, hw, List.map_cons, Stream'.cons_append_stream]
    rfl
  · rename_i hw
    dsimp only at h
    obtain ⟨hr, rfl⟩ := Prod.mk.inj h
    rw [symbols, symbols, hw, List.map_nil, Stream'.nil_append_stream, Stream'.nil_append_stream,
      Cursor.symbols, Stream'.iterate_eq, Stream'.map_cons, hr]
    rfl

end TokenStream

/-- No symbol stands for something read before, and every name is a word. -/
def Clear (b : Symbols) : Prop :=
  ∀ n, ¬(b.get n).IsPlaceholder ∧ ∀ x, b.get n = .name x → IsName x

section Clear

variable {b : Symbols} {l : Symbol}

theorem Clear.tail (h : Clear b) : Clear b.tail := fun n => h (n + 1)

theorem Clear.isName (h : Clear b) {x : String} (hx : b.head = .name x) : IsName x := (h 0).2 x hx

/-- Where no symbol ahead stands for something read before, the variables in scope may change. -/
theorem TokenStream.Regular.of_clear {F : Frame} {s : TokenStream} (h : Clear s.symbols) :
    s.Regular F := by
  intro t ht
  obtain ⟨n, hn, htn⟩ := List.mem_iff_getElem.1 ht
  have hget : s.symbols.get n = t.lexeme.symbol := by
    rw [TokenStream.symbols, Stream'.get_append_left _ _ _ (by simpa using hn), List.getElem_map,
      htn]
  have hplain := (h n).1
  rw [hget, Symbol.IsPlaceholder, Lexeme.kind_symbol] at hplain
  cases hl : t.lexeme with
  | expression | condition => simp [hl, Lexeme.kind] at hplain
  | _ => trivial

end Clear

end Quasiaffine
