import ArithWatch.Json.Parser
import ArithWatch.Json.Printer

namespace ArithWatch

/-!
# The texts of single tokens

* `JsonToken.ofBare?_toDigits`: the digits of a natural number spell it.
* `JsonLexer.HasRead` says which tokens the lexer has read when no open token can go on;
  `JsonLexer.Scans` and `JsonLexer.Continues` say which tokens a piece of text gives, at a place
  between two tokens and behind a token.
* `JsonLexer.scans_literal` and `JsonLexer.scans_nat` are the texts of strings and numbers.
-/

/-! ### Digits -/

namespace DecimalText

/-- A run of digits is split off as a whole. -/
theorem splitDigits_eq {cs : List Char} (h : ∀ c ∈ cs, c.isDigit = true) :
    splitDigits cs = (cs.map Digit.ofChar, []) := by
  induction cs with
  | nil => rfl
  | cons c rest ih =>
    have hc : digit? c = some (Digit.ofChar c) := if_pos (h c List.mem_cons_self)
    rw [splitDigits, hc, ih fun x hx => h x (List.mem_cons_of_mem _ hx)]
    rfl

end DecimalText

/-- The value of a digit is its distance from zero in the character table. -/
theorem Digit.val_ofChar {c : Char} (h : c.isDigit = true) : (ofChar c).val = c.toNat - 48 := by
  have hc : c.toNat ≤ 57 := (Char.isDigit_iff_toNat.1 h).2
  show (c.toNat - 48) % 10 = _
  omega

/-- The decimal digits of a number are digits. -/
theorem isDigit_of_mem_toDigits {n : Nat} : ∀ c ∈ Nat.toDigits 10 n, c.isDigit = true :=
  fun _ hc => Nat.isDigit_of_mem_toDigits (by decide) (by decide) hc

/-- The digits of a number spell it. -/
theorem numberOf_digitsOf (n : Nat) : numberOf (digitsOf n) = n := by
  have hfold : ∀ (cs : List Char) (m : Nat), (∀ c ∈ cs, c.isDigit = true) →
      (cs.map Digit.ofChar).foldl (fun m d => 10 * m + d.val) m = Nat.ofDigitChars 10 cs m := by
    intro cs
    induction cs with
    | nil => exact fun m _ => rfl
    | cons c rest ih =>
      intro m h
      rw [List.map_cons, List.foldl_cons, ih _ fun x hx => h x (List.mem_cons_of_mem _ hx),
        Digit.val_ofChar (h c List.mem_cons_self), Nat.ofDigitChars_cons]
      rfl
  rw [numberOf, digitsOf, hfold _ _ isDigit_of_mem_toDigits, Nat.ofDigitChars_ten_toDigits]

/-- A positive number does not start with a zero. -/
theorem exists_digitsOf {n : Nat} (h : 0 < n) : ∃ d rest, digitsOf n = d :: rest ∧ d ≠ 0 := by
  induction n using Nat.strongRecOn with
  | _ n ih =>
    -- The first digit is that of the number without its last one.
    by_cases hn : n < 10
    · refine ⟨Digit.ofChar n.digitChar, [], by rw [digitsOf, Nat.toDigits_of_lt_base hn]; rfl, ?_⟩
      intro hzero
      have hval : (Digit.ofChar n.digitChar).val = n := by
        revert hn
        clear hzero ih h
        revert n
        decide
      rw [hzero] at hval
      exact absurd hval.symm (Nat.ne_of_gt h)
    · obtain ⟨d, rest, hdigits, hd⟩ := ih (n / 10) (by omega) (by omega)
      refine ⟨d, rest ++ [Digit.ofChar (n % 10).digitChar], ?_, hd⟩
      rw [digitsOf] at hdigits ⊢
      rw [Nat.toDigits_of_base_le (by decide) (by omega), List.map_append, hdigits]
      rfl

/-- Only a number below ten has a single digit, and no other one starts with a zero. -/
theorem digitsOf_ne_zero_cons {n : Nat} {d : Digit} {rest : List Digit} :
    digitsOf n ≠ 0 :: d :: rest := by
  intro h
  rcases Nat.eq_zero_or_pos n with rfl | hn
  · cases h
  · obtain ⟨e, tail, htail, he⟩ := exists_digitsOf hn
    rw [htail] at h
    exact he (List.cons.inj h).1

/-! ### Bare runs -/

namespace JsonToken

/-- The digits of a number are read as that number, without fraction or exponent. -/
theorem numeral?_toDigits (n : Nat) :
    numeral? false (Nat.toDigits 10 n) = some (Numeral.ofNat n) := by
  -- The reader looks for no digits, for a leading zero and for what follows the digits; none
  -- occurs.
  have hsplit : DecimalText.splitDigits (Nat.toDigits 10 n) = (digitsOf n, []) :=
    DecimalText.splitDigits_eq isDigit_of_mem_toDigits
  have hne : digitsOf n ≠ [] := fun h => Nat.toDigits_ne_nil (List.map_eq_nil_iff.1 h)
  rw [numeral?, hsplit]
  split
  · next heq =>
    exact absurd (congrArg Prod.fst heq) hne
  · next heq =>
    exact absurd (congrArg Prod.fst heq) digitsOf_ne_zero_cons
  · next heq =>
    cases congrArg Prod.snd heq
  · next heq =>
    cases heq
    rw [exponent?, Option.map_some, numberOf_digitsOf]
    rfl

/-- Digits belong to bare words. -/
theorem isBare_of_isDigit {c : Char} (h : c.isDigit = true) : isBare c = true := by
  simp [isBare, Char.isAlphanum, h]

/-- The digits of a number spell its token. -/
theorem ofBare?_toDigits (n : Nat) :
    ofBare? (Nat.toDigits 10 n) = some (.num (Numeral.ofNat n)) := by
  obtain ⟨c, rest, hcs⟩ := List.exists_cons_of_ne_nil (Nat.toDigits_ne_nil (n := n) (b := 10))
  have hc : c.isDigit = true := isDigit_of_mem_toDigits (n := n) c (hcs ▸ List.mem_cons_self)
  have hnumeral := numeral?_toDigits n
  rw [hcs] at hnumeral ⊢
  unfold ofBare?
  -- The three keywords start with letters.
  split
  · next heq =>
    cases heq
    exact absurd hc (by decide)
  · next heq =>
    cases heq
    exact absurd hc (by decide)
  · next heq =>
    cases heq
    exact absurd hc (by decide)
  · next heq =>
    cases heq
    exact absurd hc (by decide)
  · rw [hnumeral, Option.map_some]

end JsonToken

/-! ### What has been read -/

namespace JsonLexer

/-- `tokens` is all that has been read, last token first, and nothing but a bare character goes on
    with the last one. -/
structure HasRead (s : JsonLexer × List JsonToken) (tokens : List JsonToken) : Prop where
  finish?_eq : finish? s = some tokens.reverse
  step_eq : ∀ c, JsonToken.isBare c = false → step s c = start? c tokens

/-- Between tokens, nothing is pending. -/
theorem HasRead.between (tokens : List JsonToken) : HasRead (.between, tokens) tokens :=
  ⟨rfl, fun _ _ => rfl⟩

/-- A bare run that spells a token has been read when it ends. -/
theorem HasRead.bare {run : List Char} {token : JsonToken} (tokens : List JsonToken)
    (h : JsonToken.ofBare? run = some token) :
    HasRead (.bare run.reverse, tokens) (token :: tokens) where
  finish?_eq := by
    rw [finish?, List.reverse_reverse, h]
    rfl
  step_eq c hc := by
    simp only [step, hc, List.reverse_reverse, h]
    rfl

/-- Between two tokens, the text gives the tokens. -/
def Scans (cs : List Char) (tokens : List JsonToken) : Prop :=
  ∀ before, ∃ s, cs.foldlM step (.between, before) = some s ∧ HasRead s (tokens.reverse ++ before)

/-- Behind any token, the text gives the tokens. -/
def Continues (cs : List Char) (tokens : List JsonToken) : Prop :=
  ∀ s before, HasRead s before →
    ∃ s', cs.foldlM step s = some s' ∧ HasRead s' (tokens.reverse ++ before)

variable {cs cs' : List Char} {tokens tokens' : List JsonToken}

/-- What may follow a bare word may also start a text. -/
theorem Continues.scans (h : Continues cs tokens) : Scans cs tokens :=
  fun before => h _ before (.between before)

/-- The empty text holds no token. -/
theorem scans_nil : Scans [] [] := fun before => ⟨_, rfl, .between before⟩

theorem continues_nil : Continues [] [] := fun s _ h => ⟨s, rfl, h⟩

/-- Texts are read one after the other, if the second may follow a bare word. -/
theorem Scans.append (h : Scans cs tokens) (h' : Continues cs' tokens') :
    Scans (cs ++ cs') (tokens ++ tokens') := by
  intro before
  obtain ⟨s, hs, hread⟩ := h before
  obtain ⟨s', hs', hread'⟩ := h' s _ hread
  refine ⟨s', by rw [List.foldlM_append, hs]; exact hs', ?_⟩
  rwa [List.reverse_append, List.append_assoc]

/-- The same, of texts that may follow a bare word. -/
theorem Continues.append (h : Continues cs tokens) (h' : Continues cs' tokens') :
    Continues (cs ++ cs') (tokens ++ tokens') := by
  intro s before hs
  obtain ⟨s₁, hs₁, hread⟩ := h s before hs
  obtain ⟨s₂, hs₂, hread'⟩ := h' s₁ _ hread
  refine ⟨s₂, by rw [List.foldlM_append, hs₁]; exact hs₂, ?_⟩
  rwa [List.reverse_append, List.append_assoc]

/-! ### Punctuation and blanks -/

/-- A punctuation character ends the token before it. -/
theorem Continues.punctuation {c : Char} {token : JsonToken}
    (hc : JsonToken.ofPunctuation? c = some token) (h : Scans cs tokens) :
    Continues (c :: cs) (token :: tokens) := by
  have hstart : ∀ before, JsonToken.isBare c = false ∧
      start? c before = some (.between, token :: before) := by
    intro before
    unfold JsonToken.ofPunctuation? at hc
    split at hc <;> cases hc <;> exact ⟨by decide, rfl⟩
  intro s before hs
  obtain ⟨hbare, hnext⟩ := hstart before
  obtain ⟨s', hs', hread⟩ := h (token :: before)
  refine ⟨s', ?_, by simpa using hread⟩
  rw [List.foldlM_cons, hs.step_eq c hbare, hnext]
  exact hs'

/-- Blanks between tokens are passed over. -/
theorem Scans.blank {c : Char} (hc : JsonToken.isSpace c = true) (h : Scans cs tokens) :
    Scans (c :: cs) tokens := by
  intro before
  obtain ⟨s, hs, hread⟩ := h before
  refine ⟨s, ?_, hread⟩
  rw [List.foldlM_cons, step, start?, if_pos hc]
  exact hs

/-- A blank ends the token before it. -/
theorem Continues.blank {c : Char} (hc : JsonToken.isSpace c = true) (h : Scans cs tokens) :
    Continues (c :: cs) tokens := by
  have hbare : JsonToken.isBare c = false := by
    simp only [JsonToken.isSpace, Bool.or_eq_true, beq_iff_eq] at hc
    rcases hc with ((rfl | rfl) | rfl) | rfl <;> decide
  intro s before hs
  obtain ⟨s', hs', hread⟩ := h before
  refine ⟨s', ?_, hread⟩
  rw [List.foldlM_cons, hs.step_eq c hbare, start?, if_pos hc]
  exact hs'

/-- Blanks before a text are skipped. -/
theorem Scans.blanks {blanks : List Char} (hblanks : ∀ c ∈ blanks, JsonToken.isSpace c = true)
    (h : Scans cs tokens) : Scans (blanks ++ cs) tokens := by
  induction blanks with
  | nil => exact h
  | cons c rest ih =>
    have hrest := ih fun x hx => hblanks x (List.mem_cons_of_mem _ hx)
    exact .blank (hblanks c List.mem_cons_self) hrest

/-- Blanks end a bare word. -/
theorem continues_blanks {blanks : List Char}
    (hblanks : ∀ c ∈ blanks, JsonToken.isSpace c = true) : Continues blanks [] := by
  induction blanks with
  | nil => exact continues_nil
  | cons c rest ih =>
    exact .blank (hblanks c List.mem_cons_self)
      (ih fun x hx => hblanks x (List.mem_cons_of_mem _ hx)).scans

/-- What separates two lines is blank. -/
theorem isSpace_of_mem_newline {style : JsonStyle} {level : Nat} :
    ∀ c ∈ style.newline level, JsonToken.isSpace c = true := by
  cases style with
  | compact => exact fun c hc => absurd hc List.not_mem_nil
  | pretty =>
    intro c hc
    rcases List.mem_cons.1 hc with rfl | hc
    · rfl
    · rw [(List.mem_replicate.1 hc).2]
      rfl

/-! ### Words and numbers -/

/-- A character of a bare word is neither a blank nor a quote. -/
theorem not_space_of_isBare {c : Char} (h : JsonToken.isBare c = true) :
    JsonToken.isSpace c = false ∧ c ≠ '"' := by
  constructor
  · refine Bool.eq_false_iff.2 fun hspace => ?_
    simp only [JsonToken.isSpace, Bool.or_eq_true, beq_iff_eq] at hspace
    rcases hspace with ((rfl | rfl) | rfl) | rfl <;> exact absurd h (by decide)
  · rintro rfl
    exact absurd h (by decide)

/-- Bare characters are collected, last one first. -/
theorem foldlM_step_bare {run : List Char} {before : List JsonToken}
    (h : ∀ c ∈ cs, JsonToken.isBare c = true) :
    cs.foldlM step (.bare run, before) = some (.bare (cs.reverse ++ run), before) := by
  induction cs generalizing run with
  | nil => rfl
  | cons c rest ih =>
    rw [List.foldlM_cons, step, if_pos (h c List.mem_cons_self)]
    show rest.foldlM step (.bare (c :: run), before) = _
    rw [ih fun x hx => h x (List.mem_cons_of_mem _ hx), List.reverse_cons, List.append_assoc]
    rfl

/-- A bare run that spells a token. -/
theorem scans_bare {token : JsonToken} (hne : cs ≠ []) (h : ∀ c ∈ cs, JsonToken.isBare c = true)
    (htoken : JsonToken.ofBare? cs = some token) : Scans cs [token] := by
  intro before
  obtain ⟨c, rest, rfl⟩ := List.exists_cons_of_ne_nil hne
  have hc := h c List.mem_cons_self
  obtain ⟨hspace, hquote⟩ := not_space_of_isBare hc
  refine ⟨(.bare (c :: rest).reverse, before), ?_, .bare before htoken⟩
  rw [List.foldlM_cons, step, start?, hspace, if_neg Bool.false_ne_true, if_neg hquote, if_pos hc]
  show rest.foldlM step (.bare [c], before) = _
  rw [foldlM_step_bare fun x hx => h x (List.mem_cons_of_mem _ hx), List.reverse_cons]

/-- The literal of null is one token. -/
theorem scans_null : Scans "null".toList [.null] :=
  scans_bare (by decide) (List.all_eq_true.1 (by decide)) rfl

/-- The literal of a boolean is one token. -/
theorem scans_bool (b : Bool) : Scans (if b then "true" else "false").toList [.bool b] := by
  cases b with
  | true => exact scans_bare (by decide) (List.all_eq_true.1 (by decide)) rfl
  | false => exact scans_bare (by decide) (List.all_eq_true.1 (by decide)) rfl

/-- The text of a natural number. -/
theorem scans_nat (n : Nat) :
    Scans ((Numeral.ofNat n).render true).toList [.num (Numeral.ofNat n)] := by
  have hrender : ((Numeral.ofNat n).render true).toList = Nat.toDigits 10 n := by
    simp [Numeral.render, Numeral.ofNat]
  rw [hrender]
  exact scans_bare Nat.toDigits_ne_nil
    (fun c hc => JsonToken.isBare_of_isDigit (isDigit_of_mem_toDigits c hc))
    (JsonToken.ofBare?_toDigits n)

/-! ### String literals -/

/-- Four hexadecimal digits after the escape are read back as their unit. -/
theorem foldlM_step_unit {u : Nat} (hu : u < 0x10000) (pieces : List JsonPiece)
    (before : List JsonToken) :
    (JsonEscape.unit u).foldlM step (.literal pieces, before) =
      some (.literal (.unit u :: pieces), before) := by
  have hdigit (k : Nat) : Text.hexDigit? (Text.hexChar (k % 16)) = some (k % 16) :=
    Text.hexDigit?_hexChar _ (Nat.mod_lt _ (by decide))
  have hvalue :
      16 * (16 * (16 * (u / 0x1000 % 16) + u / 0x100 % 16) + u / 16 % 16) + u % 16 = u := by
    omega
  simp [JsonEscape.unit, step, hdigit, hvalue]

/-- The letter of a short escape is read back as the character it stands for. -/
theorem ofEscape?_of_escapeLetter? {c letter : Char} (h : JsonPiece.escapeLetter? c = some letter) :
    letter ≠ 'u' ∧ JsonPiece.ofEscape? letter = some c := by
  unfold JsonPiece.escapeLetter? at h
  split at h <;> cases h <;> exact ⟨by decide, rfl⟩

/-- A character of a string literal. -/
theorem foldlM_step_piece (c : Char) (pieces : List JsonPiece) (before : List JsonToken) :
    (JsonEscape.piece (.ofChar c)).foldlM step (.literal pieces, before) =
      some (.literal (.ofChar c :: pieces), before) := by
  rw [JsonPiece.ofChar]
  -- A control character without a short escape is written as a unit; the rest as themselves or by
  -- their letter.
  split
  · next h =>
    have hlt : c.toNat < 0x20 := h.1
    exact foldlM_step_unit (by omega) pieces before
  · next h =>
    rw [JsonEscape.piece]
    cases hletter : JsonPiece.escapeLetter? c with
    | some letter =>
      obtain ⟨hu, hescape⟩ := ofEscape?_of_escapeLetter? hletter
      simp [step, hu, hescape]
    | none =>
      have hlt : ¬ c < ' ' := fun hlt => h ⟨hlt, hletter⟩
      have hquote : c ≠ '"' := by
        rintro rfl
        cases hletter
      have hslash : c ≠ '\\' := by
        rintro rfl
        cases hletter
      simp [step, hlt, hquote, hslash]

/-- The text of a string literal. -/
theorem scans_literal (s : String) : Scans (JsonEscape.literal (.ofText s)) [.str (.ofText s)] := by
  -- The pieces pile up in reverse, as the lexer keeps them.
  have hpieces : ∀ (cs : List Char) (pieces : List JsonPiece) (before : List JsonToken),
      ((cs.map JsonPiece.ofChar).flatMap JsonEscape.piece).foldlM step (.literal pieces, before) =
        some (.literal ((cs.map JsonPiece.ofChar).reverse ++ pieces), before) := by
    intro cs
    induction cs with
    | nil => exact fun _ _ => rfl
    | cons c rest ih =>
      intro pieces before
      rw [List.map_cons, List.flatMap_cons, List.foldlM_append, foldlM_step_piece]
      show ((rest.map JsonPiece.ofChar).flatMap JsonEscape.piece).foldlM step
        (.literal (.ofChar c :: pieces), before) = _
      rw [ih, List.reverse_cons, List.append_assoc]
      rfl
  intro before
  refine ⟨(.between, .str (.ofText s) :: before), ?_, .between _⟩
  rw [JsonEscape.literal, List.foldlM_cons]
  show (((s.toList.map JsonPiece.ofChar).flatMap JsonEscape.piece) ++ ['"']).foldlM step
    (.literal [], before) = _
  rw [List.foldlM_append, hpieces]
  show some (JsonLexer.between, JsonToken.str ⟨_⟩ :: before) = _
  rw [List.append_nil, List.reverse_reverse]
  rfl

end JsonLexer

end ArithWatch
