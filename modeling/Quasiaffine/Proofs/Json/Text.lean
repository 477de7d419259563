import Mathlib
import Quasiaffine.Json.Parser
import Quasiaffine.Json.Writer

set_option autoImplicit false

namespace Quasiaffine.Json

mutual

def isPlain : Json → Bool
  | list elements => arePlain elements
  | object fields => fieldsArePlain fields
  | foreign => false
  | _ => true

def arePlain : List Json → Bool
  | [] => true
  | j :: js => j.isPlain && arePlain js

def fieldsArePlain : List (String × Json) → Bool
  | [] => true
  | (_, j) :: fs => j.isPlain && fieldsArePlain fs

end

structure Layout.Blank (layout : Layout) : Prop where
  lineStart : ∀ nesting, ∀ c ∈ layout.lineStart nesting, isBlank c = true
  afterColon : ∀ c ∈ layout.afterColon, isBlank c = true

theorem Layout.blank_compact : Layout.compact.Blank := ⟨nofun, nofun⟩

theorem Layout.blank_indented : Layout.indented.Blank := by
  refine ⟨fun nesting c hc => ?_, fun c hc => ?_⟩
  · rcases List.mem_cons.1 hc with rfl | hc
    · rfl
    · rw [List.eq_of_mem_replicate hc]
      rfl
  · rw [List.mem_singleton.1 hc]
    rfl

variable {layout : Layout} {bs cs rest : List Char} {c : Char} {n fuel : Nat}

section Blanks

theorem skipBlanks_append (hb : ∀ c ∈ bs, isBlank c = true) (cs : List Char) :
    skipBlanks (bs ++ cs) = skipBlanks cs := List.dropWhile_append_of_pos hb

theorem skipBlanks_cons (hc : isBlank c = false) (cs : List Char) :
    skipBlanks (c :: cs) = c :: cs := by
  rw [skipBlanks, List.dropWhile_cons, if_neg (by simp [hc])]

theorem value?_append (hb : ∀ c ∈ bs, isBlank c = true) (fuel : Nat) (cs : List Char) :
    value? fuel (bs ++ cs) = value? fuel cs := by
  cases fuel with
  | zero => rw [value?, value?]
  | succ fuel => rw [value?, value?, skipBlanks_append hb]

theorem values?_append (hb : ∀ c ∈ bs, isBlank c = true) (fuel : Nat) (cs : List Char) :
    values? fuel (bs ++ cs) = values? fuel cs := by
  cases fuel with
  | zero => rw [values?, values?]
  | succ fuel => rw [values?, values?, value?_append hb]

theorem namedValues?_append (hb : ∀ c ∈ bs, isBlank c = true) (fuel : Nat) (cs : List Char) :
    namedValues? fuel (bs ++ cs) = namedValues? fuel cs := by
  cases fuel with
  | zero => rw [namedValues?, namedValues?]
  | succ fuel => rw [namedValues?, namedValues?, skipBlanks_append hb]

end Blanks

section Numbers

def endsNumber (c : Char) : Bool := !c.isDigit && c != '.' && c != 'e' && c != 'E'

def Stops (rest : List Char) : Prop := ∀ c ∈ rest.head?, endsNumber c = true

theorem stops_nil : Stops [] := nofun

theorem stops_cons (hc : endsNumber c = true) : Stops (c :: rest) := by
  rintro _ ⟨⟩
  exact hc

theorem endsNumber_of_isBlank (hc : isBlank c = true) : endsNumber c = true := by
  simp only [isBlank, Bool.or_eq_true, decide_eq_true_eq] at hc
  rcases hc with ((rfl | rfl) | rfl) | rfl <;> rfl

theorem stops_append (hb : ∀ c ∈ bs, isBlank c = true) (hr : Stops rest) : Stops (bs ++ rest) := by
  cases bs with
  | nil => exact hr
  | cons c bs => exact stops_cons (endsNumber_of_isBlank (hb c List.mem_cons_self))

theorem Stops.head (h : Stops (c :: rest)) :
    c.isDigit = false ∧ c ≠ '.' ∧ c ≠ 'e' ∧ c ≠ 'E' := by
  simpa [endsNumber, and_assoc] using h c rfl

theorem eq_zero_of_head?_toDigits (h : (Nat.toDigits 10 n).head? = some '0') : n = 0 := by
  induction n using Nat.strongRecOn with
  | _ n ih =>
    by_cases hn : n < 10
    · rw [Nat.toDigits_of_lt_base hn] at h
      interval_cases n <;> first | rfl | exact absurd h (by decide)
    · rw [Nat.toDigits_of_base_le (by decide) (by omega),
        List.head?_append_of_ne_nil _ Nat.toDigits_ne_nil] at h
      have := ih (n / 10) (by omega) h
      omega

theorem naturalOfDigits_toDigits (n : Nat) : naturalOfDigits (Nat.toDigits 10 n) = n := by
  rw [naturalOfDigits]
  exact (Nat.ofDigitChars_eq_foldl ..).symm.trans Nat.ofDigitChars_ten_toDigits

theorem digits?_toDigits (hr : Stops rest) :
    digits? (Nat.toDigits 10 n ++ rest) = some (Nat.toDigits 10 n, rest) := by
  have hdigits : ∀ c ∈ Nat.toDigits 10 n, c.isDigit = true := fun c hc =>
    Nat.isDigit_of_mem_toDigits (by decide) (by decide) hc
  have hrest : rest.takeWhile Char.isDigit = [] ∧ rest.dropWhile Char.isDigit = rest := by
    cases rest with
    | nil => exact ⟨rfl, rfl⟩
    | cons c rest => simp [hr.head.1]
  rw [digits?, List.takeWhile_append_of_pos hdigits, List.dropWhile_append_of_pos hdigits, hrest.1,
    hrest.2, List.append_nil]
  split
  · rename_i hnil
    exact absurd hnil Nat.toDigits_ne_nil
  · rfl

theorem unsigned?_toDigits (negative : Bool) (hn : negative = true → n ≠ 0) (hr : Stops rest) :
    unsigned? negative (Nat.toDigits 10 n ++ rest) =
      some (integer (if negative then -n else n), rest) := by
  have hzero : ¬((Nat.toDigits 10 n).length > 1 ∧ (Nat.toDigits 10 n).head? = some '0') := by
    rintro ⟨hlen, hhead⟩
    rw [eq_zero_of_head?_toDigits hhead] at hlen
    exact absurd hlen (by decide)
  have hstop : skipDecimals? rest = some rest ∧ skipExponent? rest = some rest := by
    cases rest with
    | nil => exact ⟨rfl, rfl⟩
    | cons c rest =>
      obtain ⟨-, hpoint, he, hE⟩ := hr.head
      refine ⟨?_, by simp [skipExponent?, he, hE]⟩
      rw [skipDecimals?]
      rintro r ⟨⟩
      exact hpoint rfl
  have hneg : ¬(negative = true ∧ n = 0) := fun h => hn h.1 h.2
  simp [unsigned?, digits?_toDigits hr, hzero, hstop.1, hstop.2, naturalOfDigits_toDigits, hneg]

theorem toList_toString (v : Int) :
    (toString v).toList =
      if 0 ≤ v then Nat.toDigits 10 v.toNat else '-' :: Nat.toDigits 10 (-v).toNat := by
  rw [Int.toString_eq_repr, Int.repr_eq_if]
  split
  · rw [Nat.toList_repr]
  · rw [String.toList_append, Nat.toList_repr]
    rfl

theorem exists_cons_toDigits (n : Nat) :
    ∃ c cs, Nat.toDigits 10 n = c :: cs ∧ c.isDigit = true := by
  obtain ⟨c, cs, h⟩ := List.exists_cons_of_ne_nil (Nat.toDigits_ne_nil (n := n) (b := 10))
  exact ⟨c, cs, h, Nat.isDigit_of_mem_toDigits (by decide) (by decide) (h ▸ List.mem_cons_self)⟩

theorem value?_of_startsNumber (hc : c = '-' ∨ c.isDigit = true) (fuel : Nat) (cs : List Char) :
    value? (fuel + 1) (c :: cs) = number? (c :: cs) := by
  have hmark : ∀ m : Char, m.isDigit = false → m ≠ '-' → c ≠ m := by
    rintro m hm hminus rfl
    rcases hc with hc | hc
    · exact hminus hc
    · rw [hm] at hc
      cases hc
  have hblank : isBlank c = false := by
    simp [isBlank, hmark]
  rw [value?, skipBlanks_cons hblank]
  split
  all_goals first
    | rfl
    | (rename_i heq
       exact absurd (List.cons.inj heq).1 (hmark _ rfl (by decide)))

theorem value?_toString (v : Int) (hr : Stops rest) (fuel : Nat) :
    value? (fuel + 1) ((toString v).toList ++ rest) = some (integer v, rest) := by
  rw [toList_toString]
  split
  · rename_i hv
    obtain ⟨c, cs, hcs, hc⟩ := exists_cons_toDigits v.toNat
    have hread := unsigned?_toDigits false (n := v.toNat) nofun hr
    rw [hcs, List.cons_append] at hread ⊢
    rw [value?_of_startsNumber (.inr hc), number?, hread]
    · simp [Int.toNat_of_nonneg hv]
    · rintro r h
      rw [(List.cons.inj h).1] at hc
      cases hc
  · rename_i hv
    have hread := unsigned?_toDigits true (n := (-v).toNat) (by omega) hr
    rw [List.cons_append, value?_of_startsNumber (.inl rfl), number?, hread]
    have : ((-v).toNat : Int) = -v := Int.toNat_of_nonneg (by omega)
    simp [this]

end Numbers

section Values

theorem encode_append (cs rest : List Char) :
    Quoted.encode cs ++ rest = '"' :: (cs.flatMap Quoted.escape ++ '"' :: rest) := by
  simp [Quoted.encode]

theorem text?_escaped (name : String) (rest : List Char) :
    text? (name.toList.flatMap Quoted.escape ++ '"' :: rest) = some (some name, rest) := by
  simp [text?, Quoted.units?_flatMap_escape, Quoted.decodeUnits?_map_toNat]

theorem ofFields_map (fs : List (String × Json)) :
    ofFields (fs.map fun f => (some f.1, f.2)) = object fs := by
  have hmap : (fs.map fun f => (some f.1, f.2)).mapM
      (fun f : Option String × Json => f.1.map fun name => (name, f.2)) = some fs := by
    induction fs with
    | nil => rfl
    | cons f fs ih => simp [ih]
  rw [ofFields, hmap]

/-- No text of a value starts with a blank or with the end of a list. -/
theorem exists_cons_write (layout : Layout) (n : Nat) (j : Json) :
    ∃ c cs, j.write layout n = c :: cs ∧ isBlank c = false ∧ c ≠ ']' := by
  match j with
  | null => exact ⟨_, _, rfl, rfl, by decide⟩
  | boolean true => exact ⟨_, _, rfl, rfl, by decide⟩
  | boolean false => exact ⟨_, _, rfl, rfl, by decide⟩
  | integer v =>
    rw [write, toList_toString]
    split
    · obtain ⟨c, cs, hcs, hc⟩ := exists_cons_toDigits v.toNat
      refine ⟨c, cs, hcs, ?_, ?_⟩
      · cases hb : isBlank c with
        | false => rfl
        | true =>
          have := endsNumber_of_isBlank hb
          simp [endsNumber, hc] at this
      · rintro rfl
        cases hc
    · exact ⟨_, _, rfl, rfl, by decide⟩
  | text s => exact ⟨_, _, rfl, rfl, by decide⟩
  | list [] => exact ⟨_, _, rfl, rfl, by decide⟩
  | list (j :: js) => exact ⟨_, _, by rw [write]; rfl, rfl, by decide⟩
  | object [] => exact ⟨_, _, rfl, rfl, by decide⟩
  | object ((name, j) :: fs) => exact ⟨_, _, by rw [write]; rfl, rfl, by decide⟩
  | foreign => exact ⟨_, _, rfl, rfl, by decide⟩

theorem stops_writeElements (layout : Layout) (n : Nat) (hb : ∀ c ∈ bs, isBlank c = true)
    (js : List Json) (rest : List Char) :
    Stops (writeElements layout n js ++ (bs ++ ']' :: rest)) := by
  cases js with
  | nil =>
    rw [writeElements, List.nil_append]
    exact stops_append hb (stops_cons rfl)
  | cons j js =>
    rw [writeElements]
    exact stops_cons rfl

theorem stops_writeFields (layout : Layout) (n : Nat) (hb : ∀ c ∈ bs, isBlank c = true)
    (fs : List (String × Json)) (rest : List Char) :
    Stops (writeFields layout n fs ++ (bs ++ '\x7d' :: rest)) := by
  cases fs with
  | nil =>
    rw [writeFields, List.nil_append]
    exact stops_append hb (stops_cons rfl)
  | cons f fs =>
    rw [writeFields]
    exact stops_cons rfl

theorem value?_of_values? {js : List Json} (ho : skipBlanks cs = c :: bs) (hc : c ≠ ']')
    (h : values? fuel cs = some (js, rest)) :
    value? (fuel + 1) ('[' :: cs) = some (list js, rest) := by
  rw [value?, skipBlanks_cons rfl]
  simp only [ho]
  split
  · rename_i heq
    exact absurd (List.cons.inj heq).1 hc
  · simp [h]

theorem value?_of_namedValues? {fs : List (String × Json)} (ho : skipBlanks cs = c :: bs)
    (hc : c ≠ '\x7d')
    (h : namedValues? fuel cs = some (fs.map fun f => (some f.1, f.2), rest)) :
    value? (fuel + 1) ('\x7b' :: cs) = some (object fs, rest) := by
  rw [value?, skipBlanks_cons rfl]
  simp only [ho]
  split
  · rename_i heq
    exact absurd (List.cons.inj heq).1 hc
  · simp [h, ofFields_map]

mutual

/-- The nesting of calls stays below twice the length of the text. -/
theorem value?_write {layout : Layout} (hl : layout.Blank) {j : Json} (hj : j.isPlain = true)
    {n fuel : Nat} (hf : 2 * (j.write layout n).length ≤ fuel) {rest : List Char}
    (hr : Stops rest) : value? fuel (j.write layout n ++ rest) = some (j, rest) := by
  obtain ⟨c, cs, hcs, -⟩ := exists_cons_write layout n j
  obtain ⟨fuel, rfl⟩ : ∃ m, fuel = m + 1 := ⟨fuel - 1, by
    rw [hcs, List.length_cons] at hf
    omega⟩
  match j with
  | null | boolean true | boolean false | list [] | object [] => rfl
  | integer v => exact value?_toString v hr fuel
  | text s =>
    rw [write, encode_append, value?, skipBlanks_cons rfl]
    simp [text?_escaped]
  | list (j :: js) =>
    obtain ⟨c, cs, hcs, hblank, hc⟩ := exists_cons_write layout (n + 1) j
    simp only [write, List.length_cons, List.length_append] at hf
    have hfuel : 2 * ((j.write layout (n + 1)).length +
        (writeElements layout (n + 1) js).length) + 1 ≤ fuel := by omega
    have helements := values?_write hl (by simpa [isPlain] using hj) hfuel (hl.lineStart n) rest
    rw [← values?_append (hl.lineStart (n + 1))] at helements
    have hread := value?_of_values? (c := c)
      (by rw [skipBlanks_append (hl.lineStart _), hcs, List.cons_append, skipBlanks_cons hblank]) hc
      helements
    simpa [write] using hread
  | object ((name, j) :: fs) =>
    simp only [write, List.length_cons, List.length_append] at hf
    have hfuel : 2 * ((Quoted.encode name.toList).length + (j.write layout (n + 1)).length +
        (writeFields layout (n + 1) fs).length) + 1 ≤ fuel := by omega
    have hfields := namedValues?_write hl (by simpa [isPlain] using hj) hfuel (hl.lineStart n) rest
    rw [← namedValues?_append (hl.lineStart (n + 1))] at hfields
    have hread := value?_of_namedValues? (c := '"')
      (by rw [skipBlanks_append (hl.lineStart _), encode_append, skipBlanks_cons rfl]) (by decide)
      hfields
    simpa [write] using hread
termination_by fuel

theorem values?_write {layout : Layout} (hl : layout.Blank) {j : Json} {js : List Json}
    (hj : arePlain (j :: js) = true) {n fuel : Nat}
    (hf : 2 * ((j.write layout n).length + (writeElements layout n js).length) + 1 ≤ fuel)
    {bs : List Char} (hb : ∀ c ∈ bs, isBlank c = true) (rest : List Char) :
    values? fuel (j.write layout n ++ (writeElements layout n js ++ (bs ++ ']' :: rest))) =
      some (j :: js, rest) := by
  obtain ⟨fuel, rfl⟩ : ∃ m, fuel = m + 1 := ⟨fuel - 1, by omega⟩
  rw [arePlain, Bool.and_eq_true] at hj
  rw [values?, value?_write hl hj.1 (by omega) (stops_writeElements layout n hb js rest)]
  match js with
  | [] => simp [writeElements, skipBlanks_append hb, skipBlanks_cons (c := ']') rfl]
  | j' :: js =>
    simp only [writeElements, List.length_cons, List.length_append] at hf
    have hfuel : 2 * ((j'.write layout n).length + (writeElements layout n js).length) + 1 ≤
        fuel := by omega
    have hmore := values?_write hl hj.2 hfuel hb rest
    rw [← values?_append (hl.lineStart n)] at hmore
    simp [writeElements, skipBlanks_cons (c := ',') rfl, hmore]
termination_by fuel

theorem namedValues?_write {layout : Layout} (hl : layout.Blank) {name : String} {j : Json}
    {fs : List (String × Json)} (hj : fieldsArePlain ((name, j) :: fs) = true) {n fuel : Nat}
    (hf : 2 * ((Quoted.encode name.toList).length + (j.write layout n).length +
      (writeFields layout n fs).length) + 1 ≤ fuel)
    {bs : List Char} (hb : ∀ c ∈ bs, isBlank c = true) (rest : List Char) :
    namedValues? fuel (Quoted.encode name.toList ++ (':' :: (layout.afterColon ++
      (j.write layout n ++ (writeFields layout n fs ++ (bs ++ '\x7d' :: rest)))))) =
        some (((name, j) :: fs).map fun f => (some f.1, f.2), rest) := by
  obtain ⟨fuel, rfl⟩ : ∃ m, fuel = m + 1 := ⟨fuel - 1, by omega⟩
  rw [fieldsArePlain, Bool.and_eq_true] at hj
  have hfuel : 2 * (j.write layout n).length ≤ fuel := by omega
  have hvalue := value?_write hl hj.1 hfuel (stops_writeFields layout n hb fs rest)
  rw [← value?_append hl.afterColon] at hvalue
  rw [namedValues?, encode_append, skipBlanks_cons rfl]
  simp only [expect?, if_true, text?_escaped, Option.bind_eq_bind, Option.bind_some,
    skipBlanks_cons (c := ':') rfl, hvalue]
  match fs with
  | [] => simp [writeFields, skipBlanks_append hb, skipBlanks_cons (c := '\x7d') rfl]
  | (name', j') :: fs =>
    simp only [writeFields, List.length_cons, List.length_append] at hf
    have hmoreFuel : 2 * ((Quoted.encode name'.toList).length + (j'.write layout n).length +
        (writeFields layout n fs).length) + 1 ≤ fuel := by omega
    have hmore := namedValues?_write hl hj.2 hmoreFuel hb rest
    rw [← namedValues?_append (hl.lineStart n)] at hmore
    simp [writeFields, skipBlanks_cons (c := ',') rfl, hmore]
termination_by fuel

end

end Values

/-- The text of a value is the text of the value, whatever blanks it has. -/
theorem parse?_write (hl : layout.Blank) {j : Json} (hj : j.isPlain = true) :
    parse? (String.ofList (j.write layout 0)) = some (j.within maxNesting) := by
  have hfuel : 2 * (j.write layout 0).length ≤ 2 * ((j.write layout 0).length + 1) := by omega
  have hvalue := value?_write hl hj hfuel stops_nil
  rw [List.append_nil] at hvalue
  rw [parse?, String.toList_ofList]
  simp only [hvalue, Option.bind_eq_bind, Option.bind_some, skipBlanks, List.dropWhile_nil,
    List.isEmpty_nil, if_true]

end Quasiaffine.Json
