import Mathlib.Algebra.Ring.Nat
import Quasiaffine.Proofs.Reader.Ends

/-!
What is left of a text, weighed together with the tokens that were put back. A placeholder weighs
less than any token that it may stand for. What an action takes off this weight pays for the calls of
productions that it makes.
-/

set_option autoImplicit false

namespace Quasiaffine

/-- What a token weighs that was put back. -/
def Lexeme.weight : Lexeme → Nat
  | endOfInput => 0
  | expression _ | condition _ => 16
  | _ => 32

theorem Lexeme.weight_le (l : Lexeme) : l.weight ≤ 32 := by
  cases l <;> simp [weight]

def TokenStream.weight (s : TokenStream) : Nat :=
  32 * s.cursor.rest.length + (s.waiting.map (·.lexeme.weight)).sum

theorem TokenStream.weight_ofText (source : String) :
    (ofText source).weight = 32 * source.length := by
  simp [weight, ofText, Cursor.ofText, String.length_toList]

theorem Cursor.length_rest_next_le (c : Cursor) : c.next.2.rest.length ≤ c.rest.length := by
  have hle := c.length_rest_skipGap_le
  have happend := congrArg List.length (Lexeme.scan_append c.skipGap.rest)
  rw [List.length_append] at happend
  change (Lexeme.scan c.skipGap.rest).rest.length ≤ c.rest.length
  omega

theorem Lexeme.weight_eq_zero_of_isEnd {t : Token} (h : t.isEnd = true) : t.lexeme.weight = 0 := by
  simp only [Token.isEnd, Token.kind, beq_iff_eq] at h
  cases hl : t.lexeme <;> simp_all [Lexeme.kind, weight]

namespace TokenStream

theorem power_le (base : Int) (t : Token) (c : Cursor) :
    (power base t c).2.rest.length ≤ c.rest.length := by
  have hle := c.length_rest_next_le
  unfold power
  cases hc : c.next with
  | mk result d =>
    rw [hc] at hle
    cases result with
    | error e => exact hle
    | ok exponent =>
      dsimp only
      split <;> exact hle

theorem lexeme_power {base : Int} {t t' : Token} {c d : Cursor}
    (h : power base t c = (.ok t', d)) : t'.lexeme.weight = 32 := by
  unfold power at h
  split at h
  · cases h
  · split at h
    · obtain ⟨h, -⟩ := Prod.mk.inj h
      obtain rfl := Except.ok.inj h
      rfl
    · cases h

def Weighed (c : Cursor) : Except Error Token × Cursor → Prop
  | (.ok t, d) => 32 * d.rest.length + t.lexeme.weight ≤ 32 * c.rest.length
  | (.error _, d) => d.rest.length ≤ c.rest.length

theorem weighed_power {base : Int} {t : Token} {c d : Cursor}
    (h : d.rest.length < c.rest.length) : Weighed c (power base t d) := by
  have hle := power_le base t d
  cases hp : power base t d with
  | mk result e =>
    rw [hp] at hle
    dsimp only at hle
    cases result with
    | error _ => exact Nat.le_of_lt (Nat.lt_of_le_of_lt hle h)
    | ok t' =>
      have hw := lexeme_power hp
      change 32 * e.rest.length + t'.lexeme.weight ≤ 32 * c.rest.length
      omega

theorem weighed_read (c : Cursor) : Weighed c (read c) := by
  have hle := c.length_rest_next_le
  unfold read
  split
  · rename_i e d hc
    rw [hc] at hle
    exact hle
  · rename_i t d hc
    rw [hc] at hle
    dsimp only at hle
    have hplain : Weighed c (.ok t, d) := by
      change 32 * d.rest.length + t.lexeme.weight ≤ 32 * c.rest.length
      cases hend : t.isEnd with
      | true =>
        have hw := Lexeme.weight_eq_zero_of_isEnd hend
        omega
      | false =>
        have hlt := Cursor.length_rest_next_lt hc hend
        have hw := t.lexeme.weight_le
        omega
    split
    · rename_i base hbase
      have hlt : d.rest.length < c.rest.length := by
        have hw : t.lexeme.weight = 32 := by rw [hbase]; rfl
        change 32 * d.rest.length + t.lexeme.weight ≤ 32 * c.rest.length at hplain
        omega
      have hcaret := d.length_rest_next_le
      split
      · rename_i caret behind hbehind
        rw [hbehind] at hcaret
        split
        · exact weighed_power (Nat.lt_of_le_of_lt hcaret hlt)
        · exact hplain
      · exact hplain
    · exact hplain

/-- Taking a token takes at least its weight off the stream. -/
theorem next_spec (s : TokenStream) :
    match next s with
    | (.ok t, s') => s'.weight + t.lexeme.weight ≤ s.weight
    | (.error _, s') => s'.weight ≤ s.weight := by
  unfold next
  cases hw : s.waiting with
  | cons t waiting =>
    simp only [weight, hw, List.map_cons, List.sum_cons]
    omega
  | nil =>
    have h := weighed_read s.cursor
    dsimp only
    cases hr : read s.cursor with
    | mk result d =>
      rw [hr] at h
      cases result <;> simp only [Weighed, weight, hw, List.map_nil, List.sum_nil] at h ⊢ <;> omega

/-- Started with a credit of `c`, an action ends with a credit that depends on its result. What it
takes off the stream adds to the credit. -/
def Saves (c : Nat) {α : Type} (action : Streaming α) (credit : α → Nat) : Prop :=
  ∀ n, Ends (fun s => s.weight + c ≤ n) action (fun a s => s.weight + credit a ≤ n)
    fun _ s => s.weight ≤ n

section Saves

variable {α β : Type} {c : Nat} {action : Streaming α} {k : α → Streaming β} {f : α → Nat}
  {g : β → Nat} {kind : TokenKind}

theorem Saves.bind (h : Saves c action f) (hk : ∀ a, Saves (f a) (k a) g) :
    Saves c (action >>= k) g := fun n => (h n).bind fun a => hk a n

theorem saves_pure {a : α} (h : f a ≤ c) : Saves c (pure a) f := fun n =>
  ends_pure fun s hs => by omega

theorem saves_next : Saves c next fun t => t.lexeme.weight + c := by
  intro n s hs
  have h := next_spec s
  cases hr : next s with
  | mk result s' =>
    rw [hr] at h
    cases result <;> dsimp only at h ⊢ <;> omega

theorem saves_push {t : Token} : Saves (t.lexeme.weight + c) (push t) fun _ => c := fun n =>
  ends_modify fun s hs => by
    simp only [weight, List.map_cons, List.sum_cons] at hs ⊢
    omega

theorem saves_nextIs : Saves c (nextIs kind) fun _ => c :=
  saves_next.bind fun _ => saves_push.bind fun _ => saves_pure (Nat.le_refl c)

theorem saves_eatIf (hkind : ∀ t : Token, t.kind = kind → t.lexeme.weight = 32) :
    Saves c (eatIf kind) fun b => if b then 32 + c else c := by
  refine saves_next.bind fun t => ?_
  split
  · rename_i ht
    exact saves_pure (by rw [hkind t ht]; exact Nat.le_refl _)
  · exact saves_push.bind fun _ => saves_pure (Nat.le_refl c)

theorem saves_expect (hkind : ∀ t : Token, t.kind = kind → t.lexeme.weight = 32) :
    Saves c (expect kind) fun _ => 32 + c := by
  refine saves_next.bind fun t => ?_
  split
  · rename_i ht
    exact saves_pure (Nat.le_of_eq (by rw [hkind t ht]))
  · exact fun n => ends_throw fun s hs => by omega

/-- Looking ahead leaves the weight as it was. -/
theorem ends_lookingAhead {s : TokenStream} {p : α → Prop} {fail : Error → TokenStream → Prop}
    (h : Ends (· = s) action (fun a _ => p a) fail) :
    Ends (· = s) (lookingAhead action) (fun a t => p a ∧ t.weight = s.weight) fail := by
  refine .get_bind fun s' hs' => ?_
  subst hs'
  refine (h.mono (fun t ht => ht.1) (fun a t ha => ha) fun _ _ hf => hf).bind fun a => ?_
  have hrestore : Ends (fun _ => p a) (restore s') (fun _ t => p a ∧ t.weight = s'.weight) fail :=
    ends_modify fun _ ha => ⟨ha, rfl⟩
  exact hrestore.bind fun _ => ends_pure fun _ ht => ht

theorem Saves.mono {f' : α → Nat} (h : Saves c action f) (hf : ∀ a, f' a ≤ f a) :
    Saves c action f' := fun n =>
  (h n).mono (fun _ hs => hs) (fun a s hs => by have := hf a; omega) fun _ _ hs => hs

theorem Saves.lookingAhead (h : Saves 0 action fun _ => 0) :
    Saves c (lookingAhead action) fun _ => c := by
  intro n s hs
  have haction : Ends (· = s) action (fun _ _ => True) fun _ t => t.weight ≤ n :=
    (h n).mono (by rintro _ rfl; omega) (fun _ _ _ => trivial) fun _ _ ht => ht
  have hrun := ends_lookingAhead haction s rfl
  cases hr : TokenStream.lookingAhead action s with
  | mk result t =>
    rw [hr] at hrun
    cases result with
    | error e => exact hrun
    | ok a =>
      dsimp only at hrun ⊢
      rwa [hrun.2]

end Saves

end TokenStream

theorem Token.weight_of_kind_mark {t : Token} {m : Mark} (h : t.kind = .mark m) :
    t.lexeme.weight = 32 := by
  rw [Token.kind] at h
  cases hl : t.lexeme <;> simp_all [Lexeme.kind, Lexeme.weight]

theorem Token.weight_of_kind_keyword {t : Token} {w : Keyword} (h : t.kind = .keyword w) :
    t.lexeme.weight = 32 := by
  rw [Token.kind] at h
  cases hl : t.lexeme <;> simp_all [Lexeme.kind, Lexeme.weight]

namespace Reading

/-- The calls made so far and the weight of the stream leave `c` of `n` calls, and calls may nest
more deeply than the weight of the stream and `c` together. -/
structure Within (n depth c : Nat) (s : ReaderState) : Prop where
  calls : s.calls + (s.stream.weight + c) ≤ n
  nesting : s.stream.weight + c ≤ depth

/-- Where calls may nest `depth` deep and a credit of `c` together with the weight of the stream is
no more than that, an action is not stopped for nesting too deeply. It makes no more calls than the
weight that it takes off the stream and the credit that it uses up. The credit that it leaves
depends on its result. -/
def Affords (depth c : Nat) {α : Type} (m : Reading α) (credit : α → Nat) : Prop :=
  ∀ n w, w ≤ depth → Ends (Within n w c) m (fun a => Within n w (credit a)) fun e s =>
    e ≠ .exhausted ∧ s.calls + s.stream.weight ≤ n

variable {α β : Type} {depth c c' : Nat} {m : Reading α} {k : α → Reading β} {f f' : α → Nat}
  {g : β → Nat} {kind : TokenKind} {mark : Mark} {word : Keyword}

theorem Affords.bind (h : Affords depth c m f) (hk : ∀ a, Affords depth (f a) (k a) g) :
    Affords depth c (m >>= k) g := fun n w hw => (h n w hw).bind fun a => hk a n w hw

/-- Credit that an action does not need is there afterwards. -/
theorem Affords.mono (h : Affords depth c m f) (hc : c ≤ c') (hf : ∀ a, f' a ≤ f a + (c' - c)) :
    Affords depth c' m f' := by
  intro n w hw s hs
  have hcalls := hs.calls
  have hnesting := hs.nesting
  have h := h (n - (c' - c)) (w - (c' - c)) (by omega) s ⟨by omega, by omega⟩
  cases hr : m s with
  | mk result t =>
    rw [hr] at h
    cases result with
    | error e => exact ⟨h.1, Nat.le_trans h.2 (Nat.sub_le _ _)⟩
    | ok a =>
      have hcalls' := h.calls
      have hnesting' := h.nesting
      have hf := hf a
      exact ⟨by omega, by omega⟩

theorem Affords.then (h : Affords depth c m f) (hc : c ≤ c')
    (hk : ∀ a, Affords depth (f a + (c' - c)) (k a) g) : Affords depth c' (m >>= k) g :=
  Affords.bind (h.mono hc fun _ => Nat.le_refl _) hk

theorem affords_pure {a : α} (h : f a ≤ c) : Affords depth c (pure a) f := fun n w _ =>
  ends_pure fun s hs => by
    have hcalls := hs.calls
    have hnesting := hs.nesting
    exact ⟨by omega, by omega⟩

theorem affords_stop (e : Error) : Affords depth c (stop e : Reading α) f := fun n w _ =>
  ends_throw fun s hs => ⟨nofun, by
    have hcalls := hs.calls
    omega⟩

theorem affords_stop_bind (e : Error) : Affords depth c (stop e >>= k) g := fun n w _ =>
  ends_throw fun s hs => ⟨nofun, by
    have hcalls := hs.calls
    omega⟩

theorem affords_zero (hc : 0 < c) : Affords 0 c m f := fun n w hw s hs => by
  have hnesting := hs.nesting
  omega

theorem affords_tokens {action : Streaming α} (h : TokenStream.Saves c action f) :
    Affords depth c (tokens action) f := by
  intro n w _
  refine ends_tokens fun s hs => ?_
  have hcalls := hs.calls
  refine (h (s.stream.weight + c)).mono (by rintro _ rfl; exact Nat.le_refl _) (fun a t ht => ?_)
    fun e t ht => ⟨nofun, ?_⟩
  · have hnesting := hs.nesting
    exact ⟨by dsimp only; omega, by dsimp only; omega⟩
  · dsimp only
    omega

theorem peek_eq : peek = tokens (do
    let t ← TokenStream.next
    TokenStream.push t
    return t) := by
  funext s
  have hleft : peek s = ExceptT.bindCont (fun t => do push t; return t) (next s).1 (next s).2 := rfl
  rw [hleft, next, tokens, tokens]
  have hright : (do
      let t ← TokenStream.next
      TokenStream.push t
      return t : Streaming Token) s.stream = ExceptT.bindCont (fun t => do
        TokenStream.push t
        return t) (TokenStream.next s.stream).1 (TokenStream.next s.stream).2 := rfl
  rw [hright]
  cases TokenStream.next s.stream with
  | mk result stream => cases result <;> rfl

theorem ends_tokens_calls {action : Streaming α} {calls n : Nat}
    (h : TokenStream.Saves 0 action fun _ => 0) :
    Ends (fun s => s.calls = calls ∧ s.stream.weight ≤ n) (tokens action)
      (fun _ s => s.calls = calls ∧ s.stream.weight ≤ n)
      fun e s => e ≠ .exhausted ∧ s.calls + s.stream.weight ≤ calls + n := by
  refine ends_tokens fun s hs => (h n).mono (by rintro _ rfl; exact hs.2)
    (fun a t ht => ⟨hs.1, ht⟩) fun e t ht => ⟨nofun, ?_⟩
  dsimp only
  omega

section Steps

theorem Affords.check_bind {r : Except Error α} (h : ∀ a, Affords depth c (k a) g) :
    Affords depth c (check r >>= k) g := by
  cases r with
  | error e => exact affords_stop_bind e
  | ok a => exact h a

theorem affords_check {r : Except Error α} (h : ∀ a, f a ≤ c) : Affords depth c (check r) f := by
  cases r with
  | error e => exact affords_stop e
  | ok a => exact affords_pure (h a)

/-- A call is paid for, and may be nested more deeply than those that it makes. -/
theorem Affords.enter_bind {k : Unit → Reading β} (h : Affords depth c (k ()) g) :
    Affords (depth + 1) (c + 1) (enter >>= k) g := by
  intro n w hw s hs
  have hcalls := hs.calls
  have hnesting := hs.nesting
  have h := h n (w - 1) (by omega) { s with calls := s.calls + 1 }
    ⟨by dsimp only; omega, by dsimp only; omega⟩
  have hrun : (enter >>= k) s = k () { s with calls := s.calls + 1 } := rfl
  rw [hrun]
  cases hr : k () { s with calls := s.calls + 1 } with
  | mk result t =>
    rw [hr] at h
    cases result with
    | error e => exact h
    | ok b => exact ⟨h.calls, Nat.le_trans h.nesting (Nat.sub_le _ _)⟩

theorem Affords.warn_bind {k : Unit → Reading β} (h : Affords depth c (k ()) g) :
    Affords depth c (warn >>= k) g := fun n w hw s hs =>
  h n w hw { s with uncheckedChoices := s.uncheckedChoices + 1 } ⟨hs.calls, hs.nesting⟩

theorem Affords.scope_bind {k : Unit → Reading β} (change : Scope → Scope)
    (h : Affords depth c (k ()) g) :
    Affords depth c (modify (fun s => { s with scope := change s.scope }) >>= k) g :=
  fun n w hw s hs => h n w hw { s with scope := change s.scope } ⟨hs.calls, hs.nesting⟩

theorem Affords.get_bind {k : ReaderState → Reading β} (h : ∀ s, Affords depth c (k s) g) :
    Affords depth c (get >>= k) g := fun n w hw s hs => h s n w hw s hs

theorem Affords.position?_bind {name : String} {k : Option Nat → Reading β}
    (h : ∀ pos, Affords depth c (k pos) g) : Affords depth c (position? name >>= k) g :=
  fun n w hw s hs => h (s.scope.position? name) n w hw s hs

theorem Affords.declare_bind {label : Label} {k : Nat → Reading β}
    (h : ∀ pos, Affords depth c (k pos) g) : Affords depth c (declare label >>= k) g :=
  fun n w hw s hs => h s.scope.size n w hw { s with scope := s.scope.declare label }
    ⟨hs.calls, hs.nesting⟩

theorem Affords.next_bind {k : Token → Reading β}
    (h : ∀ t, Affords depth (t.lexeme.weight + c) (k t) g) : Affords depth c (next >>= k) g :=
  (affords_tokens TokenStream.saves_next).bind h

theorem Affords.push_bind {k : Unit → Reading β} {t : Token} (h : Affords depth c (k ()) g) :
    Affords depth (t.lexeme.weight + c) (push t >>= k) g :=
  (affords_tokens TokenStream.saves_push).bind fun _ => h

theorem affords_push {t : Token} {f : Unit → Nat} (h : f () ≤ c) :
    Affords depth (t.lexeme.weight + c) (push t) f :=
  (affords_tokens TokenStream.saves_push).mono (Nat.le_refl _) fun _ => Nat.le_add_right_of_le h

/-- A token that is put back and taken again is as good as left where it was. -/
theorem Affords.again_bind {k : Unit → Reading β} {t : Token} (h : Affords depth c (k ()) g) :
    Affords depth c (again t >>= k) g := fun n w hw s hs =>
  h n w hw ((again t).run s).2 ⟨hs.calls, hs.nesting⟩

theorem Affords.peek_bind {k : Token → Reading β} (h : ∀ t, Affords depth c (k t) g) :
    Affords depth c (peek >>= k) g := by
  rw [peek, bind_assoc]
  refine .next_bind fun t => ?_
  rw [bind_assoc]
  exact .push_bind (by simpa using h t)

theorem Affords.nextIs_bind {k : Bool → Reading β} (h : ∀ b, Affords depth c (k b) g) :
    Affords depth c (nextIs kind >>= k) g :=
  (affords_tokens TokenStream.saves_nextIs).bind h

theorem affords_nextIs {f : Bool → Nat} (h : ∀ b, f b ≤ c) : Affords depth c (nextIs kind) f :=
  (affords_tokens TokenStream.saves_nextIs).mono (Nat.le_refl _) fun b =>
    Nat.le_add_right_of_le (h b)

theorem Affords.eatIf_bind {k : Bool → Reading β}
    (hkind : ∀ t : Token, t.kind = kind → t.lexeme.weight = 32)
    (hyes : Affords depth (32 + c) (k true) g) (hno : Affords depth c (k false) g) :
    Affords depth c (eatIf kind >>= k) g :=
  (affords_tokens (TokenStream.saves_eatIf hkind)).bind fun
    | true => hyes
    | false => hno

theorem Affords.eatMark_bind {k : Bool → Reading β} (hyes : Affords depth (32 + c) (k true) g)
    (hno : Affords depth c (k false) g) : Affords depth c (eatMark mark >>= k) g :=
  .eatIf_bind (fun _ => Token.weight_of_kind_mark) hyes hno

theorem Affords.eatKeyword_bind {k : Bool → Reading β}
    (hyes : Affords depth (32 + c) (k true) g) (hno : Affords depth c (k false) g) :
    Affords depth c (eatKeyword word >>= k) g :=
  .eatIf_bind (fun _ => Token.weight_of_kind_keyword) hyes hno

theorem Affords.expect_bind {k : Token → Reading β} (h : ∀ t, Affords depth (32 + c) (k t) g) :
    Affords depth c (expect (.mark mark) >>= k) g :=
  (affords_tokens (TokenStream.saves_expect fun _ => Token.weight_of_kind_mark)).bind h

theorem Affords.expectMark_bind {k : Unit → Reading β} (h : Affords depth (32 + c) (k ()) g) :
    Affords depth c (expectMark mark >>= k) g := by
  rw [expectMark, bind_assoc]
  exact .expect_bind fun t => by simpa using h

theorem Affords.inScope {f : α → Nat} (h : Affords depth c m f) : Affords depth c (inScope m) f :=
  .get_bind fun _ => h.bind fun a => .scope_bind (·.rollback _) (affords_pure (Nat.le_refl (f a)))

end Steps

end Reading

end Quasiaffine
