import Mathlib.Data.List.TakeDrop
import ClusterCatalog.Json.Reader

/-!
# Documents are read back from their text

A document whose numbers are written in digits and that has no lone surrogates (`Document.Legible`) is
read back from its text: `Document.read_toText`. This covers everything that is kept in the store as text;
definitions without any number are `Document.Plain`.

A string is the only place where one thing is written in several ways. Each character is read back
from its escape (`Document.exists_readUnits_escape`), so a string is. A number has no end of its own,
and neither have its parts: digits are read up to the first character that is none
(`Document.EndsDigits`), and the number is read back if what stands after it cannot go on with it
(`Document.Stops`), which is so after every value of a text. So a value is read back with what stands after it
(`Document.readValue_render`). The reader counts down the depth of its calls; the length of the text
that is still to be read is enough.
-/

namespace ClusterCatalog

namespace Numeral

/-- The digits of a natural number start with a zero only if it is zero. -/
theorem exists_decimal_eq_cons (n : Nat) :
    ∃ c cs, decimal n = c :: cs ∧ c.isDigit = true ∧ (c = '0' → n = 0) := by
  induction n using Nat.strongRecOn with
  | ind n ih =>
    unfold decimal at ih ⊢
    rw [Nat.toDigits_eq_if (by decide)]
    split
    · rename_i hlt
      -- a single digit, which is zero for zero only
      have hdigits : ∀ d < 10, (Nat.digitChar d).isDigit = true
          ∧ (Nat.digitChar d = '0' → d = 0) := by decide
      exact ⟨_, _, rfl, hdigits n hlt⟩
    · -- the first digit is that of the tenth part, which is not zero
      rename_i hle
      obtain ⟨c, cs, hcons, hdigit, hzero⟩ := ih (n / 10) (by omega)
      rw [hcons]
      exact ⟨c, _, rfl, hdigit, fun h => absurd (hzero h) (by omega)⟩

/-- **A numeral is written in digits**: the places after its point are digits, too. -/
def InDigits (n : Numeral) : Prop := ∀ c ∈ n.fraction, c.isDigit = true

/-- A numeral without point and exponent is. -/
theorem inDigits_of_isWhole {n : Numeral} (h : n.isWhole = true) : n.InDigits := by
  have hnil : n.fraction = [] := List.isEmpty_iff.1 (Bool.and_eq_true_iff.1 h).1
  intro c hc
  rw [hnil] at hc
  cases hc

/-- The places after the point with the point, if there are any. -/
def fractionPart : List Char → List Char
  | [] => []
  | c :: cs => '.' :: c :: cs

/-- The exponent as it is written, if there is one. -/
def exponentPart : Option Int → List Char
  | none => []
  | some e => 'e' :: (if e < 0 then '-' else '+') :: decimal e.natAbs

theorem render_eq (n : Numeral) : n.render = (if n.negative then ['-'] else [])
    ++ (decimal n.whole ++ (fractionPart n.fraction ++ exponentPart n.exponent)) := by
  obtain ⟨negative, whole, fraction, exponent⟩ := n
  cases fraction <;> cases exponent <;>
    simp only [render, fractionPart, exponentPart, List.append_assoc, List.isEmpty_nil,
      List.isEmpty_cons, if_true, Bool.false_eq_true, if_false]

/-- A numeral starts with its sign or with a digit. -/
theorem exists_render_eq_cons (n : Numeral) :
    ∃ c cs, n.render = c :: cs ∧ (c = '-' ∨ c.isDigit = true) := by
  obtain ⟨negative, whole, fraction, exponent⟩ := n
  obtain ⟨c, cs, hcons, hdigit, -⟩ := exists_decimal_eq_cons whole
  cases negative with
  | true => exact ⟨_, _, rfl, .inl rfl⟩
  | false => exact ⟨c, _, by rw [render, hcons]; rfl, .inr hdigit⟩

end Numeral

namespace Document

/-! ### Strings -/

theorem hexCode?_of_lt : ∀ n < 0x20,
    hexCode? '0' '0' (Nat.digitChar (n / 16)) (Nat.digitChar (n % 16)) = some n := by
  decide

/-- A short escape is read as the character that it names. -/
theorem readUnits_shortEscape {c d : Char} (hescape : shortEscape? d = some c) (hne : d ≠ 'u')
    (cs : List Char) :
    readUnits ('\\' :: d :: cs) = (readUnits cs).map fun p => (.char c :: p.1, p.2) := by
  rw [readUnits.eq_def]
  -- of the ways in which text may go on, a short escape is the fourth
  split
  · rename_i h
    cases h
  · rename_i h
    cases h
  · rename_i h
    exact absurd (List.cons.inj (List.cons.inj h).2).1 hne
  · rename_i h
    cases h
    rw [hescape]
    cases readUnits cs <;> rfl
  · rename_i hnot h
    cases h
    exact absurd rfl (hnot d cs rfl)

/-- A character that is not escaped is read as itself. -/
theorem readUnits_self {c : Char} (hquote : c ≠ '"') (hslash : c ≠ '\\') (hlow : ¬ c.toNat < 0x20)
    (cs : List Char) :
    readUnits (c :: cs) = (readUnits cs).map fun p => (.char c :: p.1, p.2) := by
  rw [readUnits.eq_def]
  -- the character is no quote and no backslash, so it stands for itself
  split
  · rename_i h
    cases h
  · rename_i h
    exact absurd (List.cons.inj h).1 hquote
  · rename_i h
    exact absurd (List.cons.inj h).1 hslash
  · rename_i h
    exact absurd (List.cons.inj h).1 hslash
  · rename_i h
    cases h
    rw [if_neg (by rintro (h | h) <;> contradiction)]
    cases readUnits cs <;> rfl

/-- **An escaped character** is read as one unit, which stands for the character. -/
theorem exists_readUnits_escape (c : Char) : ∃ unit : TextUnit,
    (∀ cs, readUnits (escape c ++ cs) = (readUnits cs).map fun p => (unit :: p.1, p.2))
      ∧ ∀ units, joinUnits (unit :: units) = (c :: ·) <$> joinUnits units := by
  have hshort : ∀ {d : Char}, shortEscape? d = some c → d ≠ 'u' → escape c = ['\\', d] →
      ∃ unit : TextUnit,
        (∀ cs, readUnits (escape c ++ cs) = (readUnits cs).map fun p => (unit :: p.1, p.2))
          ∧ ∀ units, joinUnits (unit :: units) = (c :: ·) <$> joinUnits units := by
    intro d hd hne heq
    rw [heq]
    exact ⟨.char c, readUnits_shortEscape hd hne, fun units => rfl⟩
  -- the characters with a short escape, in the order in which they are looked for
  by_cases hquote : c = '"'
  · subst hquote; exact hshort (d := '"') (by decide) (by decide) (by decide)
  by_cases hslash : c = '\\'
  · subst hslash; exact hshort (d := '\\') (by decide) (by decide) (by decide)
  by_cases hback : c = '\x08'
  · subst hback; exact hshort (d := 'b') (by decide) (by decide) (by decide)
  by_cases hfeed : c = '\x0c'
  · subst hfeed; exact hshort (d := 'f') (by decide) (by decide) (by decide)
  by_cases hline : c = '\n'
  · subst hline; exact hshort (d := 'n') (by decide) (by decide) (by decide)
  by_cases hreturn : c = '\r'
  · subst hreturn; exact hshort (d := 'r') (by decide) (by decide) (by decide)
  by_cases htab : c = '\t'
  · subst htab; exact hshort (d := 't') (by decide) (by decide) (by decide)
  unfold escape
  rw [if_neg hquote, if_neg hslash, if_neg hback, if_neg hfeed, if_neg hline, if_neg hreturn,
    if_neg htab]
  split
  · -- the other control characters are written by their number, which is no surrogate
    rename_i hlow
    refine ⟨.code c.toNat, fun cs => ?_, fun units => ?_⟩
    · simp only [List.cons_append, List.nil_append]
      rw [readUnits, hexCode?_of_lt c.toNat hlow]
      cases readUnits cs <;> rfl
    · have hleading : isLeading c.toNat = false := by simp [isLeading]; omega
      have htrailing : isTrailing c.toNat = false := by simp [isTrailing]; omega
      rw [joinUnits.eq_def]
      simp [hleading, htrailing]
  · rename_i hlow
    exact ⟨.char c, readUnits_self hquote hslash hlow, fun units => rfl⟩

/-- A string is read back up to its closing quotation mark. -/
theorem exists_readUnits_flatMap (cs rest : List Char) : ∃ units : List TextUnit,
    readUnits (cs.flatMap escape ++ '"' :: rest) = some (units, rest)
      ∧ joinUnits units = some cs := by
  induction cs with
  | nil => exact ⟨[], rfl, rfl⟩
  | cons c cs ih =>
    obtain ⟨units, hread, hjoin⟩ := ih
    obtain ⟨unit, hunit, hchar⟩ := exists_readUnits_escape c
    refine ⟨unit :: units, ?_, ?_⟩
    · rw [List.flatMap_cons, List.append_assoc, hunit, hread]
      rfl
    · rw [hchar, hjoin]
      rfl

/-- **A string is read back**, whatever follows it. -/
theorem readString_renderString (s : String) (rest : List Char) :
    ∃ cs, renderString (some s) ++ rest = '"' :: cs ∧ readString cs = some (some s, rest) := by
  obtain ⟨units, hread, hjoin⟩ := exists_readUnits_flatMap s.toList rest
  refine ⟨s.toList.flatMap escape ++ '"' :: rest, by simp [renderString], ?_⟩
  simp [readString, hread, hjoin]

/-! ### Numbers -/

/-- **What may stand after a value** in a text: its end, or a character between tokens. -/
def Stops : List Char → Prop
  | [] => True
  | c :: _ => c = ',' ∨ c = ']' ∨ c = '}'

/-- **Digits end here**: what stands here does not go on with them. -/
def EndsDigits (cs : List Char) : Prop := ∀ c ∈ cs.head?, c.isDigit = false

variable {rest : List Char}

theorem endsDigits_of_stops (h : Stops rest) : EndsDigits rest := by
  cases rest with
  | nil => exact fun c hc => nomatch hc
  | cons c cs =>
    rintro c' ⟨⟩
    rcases h with rfl | rfl | rfl <;> rfl

/-- Digits end where an exponent begins, and where a number without one stops. -/
theorem endsDigits_exponentPart (exponent : Option Int) (hrest : Stops rest) :
    EndsDigits (Numeral.exponentPart exponent ++ rest) := by
  cases exponent with
  | none => exact endsDigits_of_stops hrest
  | some e =>
    rintro c ⟨⟩
    rfl

/-- They end at a point, too. -/
theorem endsDigits_fractionPart (fraction : List Char) (h : EndsDigits rest) :
    EndsDigits (Numeral.fractionPart fraction ++ rest) := by
  cases fraction with
  | nil => exact h
  | cons d ds =>
    rintro c ⟨⟩
    rfl

theorem takeDigits_append {digits : List Char} (hdigits : ∀ c ∈ digits, c.isDigit = true)
    (hrest : EndsDigits rest) : takeDigits (digits ++ rest) = (digits, rest) := by
  have hnone : rest.takeWhile (·.isDigit) = [] ∧ rest.dropWhile (·.isDigit) = rest := by
    cases rest with
    | nil => exact ⟨rfl, rfl⟩
    | cons c cs => simp [hrest c rfl]
  rw [takeDigits, List.span_eq_takeWhile_dropWhile, List.takeWhile_append_of_pos hdigits,
    List.dropWhile_append_of_pos hdigits, hnone.1, hnone.2, List.append_nil]

/-- The digits of a natural number are taken, and are its value. -/
theorem takeDigits_decimal (n : Nat) (hrest : EndsDigits rest) :
    takeDigits (Numeral.decimal n ++ rest) = (Numeral.decimal n, rest)
      ∧ valueOf (Numeral.decimal n) = n :=
  ⟨takeDigits_append (fun _ => Nat.isDigit_of_mem_toDigits (by decide) (by decide)) hrest,
    Nat.ofDigitChars_ten_toDigits⟩

/-- A natural number is read back from its digits. -/
theorem readWhole_decimal (n : Nat) (hrest : EndsDigits rest) :
    readWhole (Numeral.decimal n ++ rest) = some (n, rest) := by
  obtain ⟨htake, hvalue⟩ := takeDigits_decimal n hrest
  obtain ⟨c, cs, hcons, -, hzero⟩ := Numeral.exists_decimal_eq_cons n
  rw [readWhole.eq_def]
  split
  · -- a number that starts with zero is zero, and nothing else is written of it
    rename_i h
    rw [hcons, List.cons_append] at h
    obtain ⟨rfl, rfl⟩ := List.cons.inj h
    obtain rfl := hzero rfl
    rw [show Numeral.decimal 0 = ['0'] from rfl] at hcons
    rw [← (List.cons.inj hcons).2]
    rfl
  · simp only [htake, hvalue]
    rw [hcons]
    rfl

/-- The places after the point are read back. If there are none, there is no point. -/
theorem readFraction_fractionPart {fraction : List Char} (hdigits : ∀ c ∈ fraction, c.isDigit = true)
    (hpoint : ∀ c ∈ rest.head?, c ≠ '.') (hrest : EndsDigits rest) :
    readFraction (Numeral.fractionPart fraction ++ rest) = some (fraction, rest) := by
  -- without a fraction nothing is written, and what follows must not look like one
  cases fraction with
  | nil =>
    show readFraction rest = some ([], rest)
    rw [readFraction.eq_def]
    split
    · exact absurd rfl (hpoint _ rfl)
    · rfl
  | cons d ds =>
    show (if (takeDigits (d :: ds ++ rest)).1.isEmpty then none
      else some (takeDigits (d :: ds ++ rest))) = _
    rw [takeDigits_append hdigits hrest]
    rfl

/-- The exponent is read back. -/
theorem readExponent_exponentPart (exponent : Option Int) (hrest : Stops rest) :
    readExponent (Numeral.exponentPart exponent ++ rest) = some (exponent, rest) := by
  cases exponent with
  | none =>
    cases rest with
    | nil => rfl
    | cons c cs => rcases hrest with rfl | rfl | rfl <;> rfl
  | some e =>
    obtain ⟨htake, hvalue⟩ := takeDigits_decimal e.natAbs (endsDigits_of_stops hrest)
    have hempty : (Numeral.decimal e.natAbs).isEmpty = false := by
      obtain ⟨c, cs, hcons, -⟩ := Numeral.exists_decimal_eq_cons e.natAbs
      rw [hcons]
      rfl
    -- the sign is always written, and is taken off before the digits
    have hsigned : ∀ negative : Bool,
        (if (takeDigits (Numeral.decimal e.natAbs ++ rest)).1.isEmpty then none
        else some (some (if negative then -(valueOf (takeDigits (Numeral.decimal e.natAbs ++ rest)).1 : Int)
          else valueOf (takeDigits (Numeral.decimal e.natAbs ++ rest)).1),
            (takeDigits (Numeral.decimal e.natAbs ++ rest)).2))
          = some (some (if negative then -(e.natAbs : Int) else e.natAbs), rest) := by
      intro negative
      rw [htake]
      simp only [hempty, hvalue, Bool.false_eq_true, if_false]
    have hpart : Numeral.exponentPart (some e) ++ rest
        = 'e' :: (if e < 0 then '-' else '+') :: (Numeral.decimal e.natAbs ++ rest) := rfl
    rw [hpart]
    by_cases hneg : e < 0
    · rw [if_pos hneg]
      refine (hsigned true).trans ?_
      rw [if_pos rfl, show -(e.natAbs : Int) = e by omega]
    · rw [if_neg hneg]
      refine (hsigned false).trans ?_
      rw [if_neg Bool.false_ne_true, show (e.natAbs : Int) = e by omega]

/-- **A number is read back** part by part, up to where it stops. -/
theorem readNumeral_render {n : Numeral} (h : n.InDigits) (hrest : Stops rest) :
    readNumeral (n.render ++ rest) = some (n, rest) := by
  rw [n.render_eq]
  obtain ⟨negative, whole, fraction, exponent⟩ := n
  let after := Numeral.exponentPart exponent ++ rest
  have hafter : EndsDigits after := endsDigits_exponentPart exponent hrest
  have hpoint : ∀ c ∈ after.head?, c ≠ '.' := by
    cases exponent with
    | none =>
      intro c hc
      cases rest with
      | nil => cases hc
      | cons d ds =>
        cases hc
        rcases hrest with rfl | rfl | rfl <;> decide
    | some e =>
      rintro c ⟨⟩
      decide
  have hsigned : ∀ sign : Bool, ((readWhole (Numeral.decimal whole
      ++ (Numeral.fractionPart fraction ++ after))).bind fun p =>
      (readFraction p.2).bind fun q => (readExponent q.2).bind fun r =>
        some ((⟨sign, p.1, q.1, r.1⟩ : Numeral), r.2))
          = some (⟨sign, whole, fraction, exponent⟩, rest) := by
    intro sign
    rw [readWhole_decimal whole (endsDigits_fractionPart fraction hafter), Option.bind_some,
      readFraction_fractionPart h hpoint hafter, Option.bind_some,
      readExponent_exponentPart exponent hrest, Option.bind_some]
  show readNumeral ((if negative then ['-'] else []) ++ (Numeral.decimal whole
    ++ (Numeral.fractionPart fraction ++ Numeral.exponentPart exponent)) ++ rest) = _
  rw [List.append_assoc, List.append_assoc, List.append_assoc]
  cases negative with
  | true => exact hsigned true
  | false =>
    -- without a sign the number starts with a digit
    obtain ⟨c, cs, hcons, hdigit, -⟩ := Numeral.exists_decimal_eq_cons whole
    have hne : c ≠ '-' := by rintro rfl; exact absurd hdigit (by decide)
    rw [if_neg Bool.false_ne_true, List.nil_append, ← hsigned false]
    rw [hcons, List.cons_append]
    unfold readNumeral
    split
    · rename_i heq
      split at heq
      · rename_i h
        exact absurd (List.cons.inj h).1 hne
      · cases heq
        rfl

/-- A character that starts a number is none of the others. -/
theorem ne_of_numeral {c d : Char} (h : c = '-' ∨ c.isDigit = true) (hsign : d ≠ '-')
    (hdigit : d.isDigit = false) : c ≠ d := by
  rintro rfl
  rcases h with h | h
  · exact hsign h
  · exact Bool.false_ne_true (hdigit.symm.trans h)

theorem isBlank_of_numeral {c : Char} (h : c = '-' ∨ c.isDigit = true) : isBlank c = false := by
  have hspace : c ≠ ' ' := ne_of_numeral h (by decide) (by decide)
  have hline : c ≠ '\n' := ne_of_numeral h (by decide) (by decide)
  have htab : c ≠ '\t' := ne_of_numeral h (by decide) (by decide)
  have hreturn : c ≠ '\r' := ne_of_numeral h (by decide) (by decide)
  simp [isBlank, hspace, hline, htab, hreturn]

/-! ### Values -/

mutual

/-- **A plain document** has no numbers, and each of its strings stands for characters. -/
def Plain : Document → Prop
  | .null => True
  | .bool _ => True
  | .number _ => False
  | .string text => text.isSome
  | .array items => PlainItems items
  | .object members => PlainMembers members

/-- All of the items are plain. -/
def PlainItems : List Document → Prop
  | [] => True
  | d :: ds => d.Plain ∧ PlainItems ds

/-- All of the members are plain. -/
def PlainMembers : List (Option String × Document) → Prop
  | [] => True
  | (k, d) :: ms => k.isSome ∧ d.Plain ∧ PlainMembers ms

end

mutual

/-- Every number of a document and every string, keys included, is as wanted. -/
def Every (number : Numeral → Prop) (text : Option String → Prop) : Document → Prop
  | .null => True
  | .bool _ => True
  | .number n => number n
  | .string s => text s
  | .array items => EveryItem number text items
  | .object members => EveryMember number text members

/-- All of the items are as wanted. -/
def EveryItem (number : Numeral → Prop) (text : Option String → Prop) : List Document → Prop
  | [] => True
  | d :: ds => d.Every number text ∧ EveryItem number text ds

/-- All of the members are as wanted. -/
def EveryMember (number : Numeral → Prop) (text : Option String → Prop) :
    List (Option String × Document) → Prop
  | [] => True
  | (k, d) :: ms => text k ∧ d.Every number text ∧ EveryMember number text ms

end

section Every

variable {number : Numeral → Prop} {text : Option String → Prop}

theorem every_array {items : List Document} :
    (array items).Every number text ↔ ∀ d ∈ items, d.Every number text := by
  rw [Every]
  induction items with
  | nil => simp [EveryItem]
  | cons d ds ih => rw [EveryItem, ih, List.forall_mem_cons]

theorem every_object {members : List (Option String × Document)} :
    (object members).Every number text
      ↔ ∀ m ∈ members, text m.1 ∧ m.2.Every number text := by
  rw [Every]
  induction members with
  | nil => simp [EveryMember]
  | cons m ms ih => rw [EveryMember, ih, List.forall_mem_cons, and_assoc]

end Every

/-- **A legible document** has its numbers written in digits, and each of its strings stands for
characters. -/
def Legible (d : Document) : Prop := d.Every Numeral.InDigits (·.isSome = true)

theorem legible_array {items : List Document} :
    (array items).Legible ↔ ∀ d ∈ items, d.Legible := every_array

theorem legible_object {members : List (Option String × Document)} :
    (object members).Legible ↔ ∀ m ∈ members, m.1.isSome = true ∧ m.2.Legible := every_object

mutual

/-- A document without numbers is legible if its strings are. -/
theorem Plain.legible : ∀ {d : Document}, d.Plain → d.Legible
  | .null, _ => trivial
  | .bool _, _ => trivial
  | .number _, h => by rw [Plain] at h; exact h.elim
  | .string _, h => by rw [Plain] at h; exact h
  | .array _, h => by rw [Plain] at h; exact h.legible
  | .object _, h => by rw [Plain] at h; exact h.legible

theorem PlainItems.legible : ∀ {ds : List Document}, PlainItems ds →
    EveryItem Numeral.InDigits (·.isSome = true) ds
  | [], _ => trivial
  | _ :: _, h => ⟨h.1.legible, h.2.legible⟩

theorem PlainMembers.legible : ∀ {ms : List (Option String × Document)}, PlainMembers ms →
    EveryMember Numeral.InDigits (·.isSome = true) ms
  | [], _ => trivial
  | (_, _) :: _, h => ⟨h.1, h.2.1.legible, h.2.2.legible⟩

end

theorem skipBlanks_cons {c : Char} (h : isBlank c = false) (cs : List Char) :
    skipBlanks (c :: cs) = c :: cs := by
  rw [skipBlanks, List.dropWhile_cons, h]
  rfl

theorem expect_self {c : Char} (h : isBlank c = false) (cs : List Char) :
    expect c (c :: cs) = some cs := by
  rw [expect, skipBlanks_cons h]
  exact if_pos rfl

theorem expect_of_ne {c d : Char} (h : isBlank d = false) (hne : d ≠ c) (cs : List Char) :
    expect c (d :: cs) = none := by
  rw [expect, skipBlanks_cons h]
  exact if_neg hne

/-- The text of a document starts with neither a blank nor a closing bracket. -/
theorem exists_render_eq_cons (d : Document) :
    ∃ c cs, d.render = c :: cs ∧ isBlank c = false ∧ c ≠ ']' := by
  cases d with
  | null => exact ⟨_, _, rfl, by decide, by decide⟩
  | bool b => cases b <;> exact ⟨_, _, rfl, by decide, by decide⟩
  | number n =>
    obtain ⟨c, cs, hrender, hstart⟩ := n.exists_render_eq_cons
    exact ⟨c, cs, hrender, isBlank_of_numeral hstart, ne_of_numeral hstart (by decide) (by decide)⟩
  | string s => exact ⟨_, _, rfl, by decide, by decide⟩
  | array ds => cases ds <;> exact ⟨_, _, rfl, by decide, by decide⟩
  | object ms => cases ms <;> exact ⟨_, _, rfl, by decide, by decide⟩

/-- Where a number starts, a number is read. -/
theorem readValue_numeral {c : Char} (h : c = '-' ∨ c.isDigit = true) (depth : Nat)
    (cs : List Char) :
    readValue (depth + 1) (c :: cs) = (readNumeral (c :: cs)).map fun p => (.number p.1, p.2) := by
  simp only [readValue, skipBlanks_cons (isBlank_of_numeral h)]
  split
  case h_7 =>
    cases readNumeral (c :: cs) <;> rfl
  -- every other kind of value starts with a character of its own
  all_goals
    rename_i heq
    exact absurd (List.cons.inj heq).1 (ne_of_numeral h (by decide) (by decide))

theorem readValue_quote (depth : Nat) (cs : List Char) :
    readValue (depth + 1) ('"' :: cs) = (readString cs).map fun p => (.string p.1, p.2) := by
  change (readString cs >>= fun p => some (Document.string p.1, p.2)) = _
  cases readString cs <;> rfl

theorem readValue_bracket {depth : Nat} {cs : List Char} (h : expect ']' cs = none) :
    readValue (depth + 1) ('[' :: cs) = (readItems depth cs).map fun p => (.array p.1, p.2) := by
  have hskip : skipBlanks ('[' :: cs) = '[' :: cs := skipBlanks_cons (by decide) cs
  simp only [readValue, hskip, h]
  cases readItems depth cs <;> rfl

theorem readValue_brace {depth : Nat} {cs : List Char} (h : expect '}' cs = none) :
    readValue (depth + 1) ('{' :: cs) = (readMembers depth cs).map fun p => (.object p.1, p.2) := by
  have hskip : skipBlanks ('{' :: cs) = '{' :: cs := skipBlanks_cons (by decide) cs
  simp only [readValue, hskip, h]
  cases readMembers depth cs <;> rfl

/-- How a member is read whose key is read. -/
theorem readMembers_quote {depth : Nat} {cs rest : List Char} {k : Option String}
    (h : readString cs = some (k, ':' :: rest)) :
    readMembers (depth + 1) ('"' :: cs)
      = (readValue depth rest).bind fun p =>
        match expect ',' p.2 with
        | some rest => (readMembers depth rest).bind fun q => some ((k, p.1) :: q.1, q.2)
        | none => (expect '}' p.2).bind fun rest => some ([(k, p.1)], rest) := by
  rw [readMembers, expect_self (by decide)]
  change ((readString cs).bind _) = _
  rw [h]
  rfl

mutual

/-- **A value is read back**, up to what stands after it. -/
theorem readValue_render : ∀ {d : Document}, d.Legible → ∀ {depth : Nat} {rest : List Char},
    Stops rest → d.render.length ≤ depth → readValue depth (d.render ++ rest) = some (d, rest)
  | d, _, 0, rest, _, hdepth => by
    obtain ⟨c, cs, hrender, -⟩ := exists_render_eq_cons d
    rw [hrender] at hdepth
    cases hdepth
  | .null, _, depth + 1, rest, _, _ => rfl
  | .bool true, _, depth + 1, rest, _, _ => rfl
  | .bool false, _, depth + 1, rest, _, _ => rfl
  | .number n, h, depth + 1, rest, hrest, _ => by
    have hread : readNumeral (n.render ++ rest) = some (n, rest) := readNumeral_render h hrest
    obtain ⟨c, cs, hrender, hstart⟩ := n.exists_render_eq_cons
    rw [hrender, List.cons_append] at hread
    rw [render, hrender, List.cons_append, readValue_numeral hstart, hread]
    rfl
  | .string (some s), _, depth + 1, rest, _, _ => by
    obtain ⟨cs, hcs, hread⟩ := readString_renderString s rest
    rw [render, hcs, readValue_quote, hread]
    rfl
  | .array [], _, depth + 1, rest, _, _ => rfl
  | .array (d :: ds), h, depth + 1, rest, _, hdepth => by
    obtain ⟨hd, hds⟩ := List.forall_mem_cons.1 (legible_array.1 h)
    obtain ⟨c, cs, hrender, hblank, hne⟩ := exists_render_eq_cons d
    -- a value follows the bracket, so the array is not empty
    have hexpect : expect ']' (d.render ++ renderItems ds ++ rest) = none := by
      rw [hrender]
      exact expect_of_ne hblank hne _
    -- the bracket is one character, and so the items have a level less and a character less
    rw [render, List.cons_append, List.length_cons] at hdepth
    rw [render, List.cons_append, List.cons_append, readValue_bracket hexpect,
      readItems_render hd hds rest (by omega)]
    rfl
  | .object [], _, depth + 1, rest, _, _ => rfl
  | .object ((none, d) :: ms), h, depth + 1, rest, _, _ =>
    absurd (legible_object.1 h _ List.mem_cons_self).1 Bool.false_ne_true
  | .object ((some k, d) :: ms), h, depth + 1, rest, _, hdepth => by
    obtain ⟨⟨-, hd⟩, hms⟩ := List.forall_mem_cons.1 (legible_object.1 h)
    have hexpect : expect '}' (renderString (some k) ++ ':' :: d.render ++ renderMembers ms ++ rest)
        = none := expect_of_ne (by decide) (by decide) _
    rw [render, List.cons_append, List.cons_append, List.length_cons] at hdepth
    rw [render, List.cons_append, List.cons_append, List.cons_append, readValue_brace hexpect,
      readMembers_render (d := d) hd hms rest (by omega)]
    rfl

/-- The items of an array, by recursion on the list; the budget is the length of the text. -/
theorem readItems_render : ∀ {d : Document} {ds : List Document}, d.Legible →
    (∀ d' ∈ ds, d'.Legible) → ∀ {depth : Nat} (rest : List Char),
      (d.render ++ renderItems ds).length ≤ depth →
        readItems depth (d.render ++ renderItems ds ++ rest) = some (d :: ds, rest)
  | d, ds, _, _, 0, rest, hdepth => by
    obtain ⟨c, cs, hrender, -⟩ := exists_render_eq_cons d
    rw [hrender] at hdepth
    cases hdepth
  | d, [], hd, _, depth + 1, rest, hdepth => by
    have hstops : Stops (renderItems [] ++ rest) := .inr (.inl rfl)
    rw [renderItems, List.length_append, List.length_singleton] at hdepth
    rw [readItems, List.append_assoc, readValue_render hd hstops (by omega)]
    rfl
  | d, d' :: ds, hd, hds, depth + 1, rest, hdepth => by
    obtain ⟨hd', hds⟩ := List.forall_mem_cons.1 hds
    have hstops : Stops (renderItems (d' :: ds) ++ rest) := .inl rfl
    rw [renderItems, List.cons_append, List.length_append, List.length_cons] at hdepth
    rw [readItems, List.append_assoc, readValue_render hd hstops (by omega), renderItems,
      List.cons_append, List.cons_append]
    -- the rest of the list has a shorter text
    have htail : readItems depth (d'.render ++ renderItems ds ++ rest) = some (d' :: ds, rest) :=
      readItems_render hd' hds rest (by omega)
    change ((readItems depth (d'.render ++ renderItems ds ++ rest)).bind fun p =>
      some (d :: p.1, p.2)) = _
    rw [htail]
    rfl

/-- The members of an object, in the same way. -/
theorem readMembers_render : ∀ {k : String} {d : Document} {ms : List (Option String × Document)},
    d.Legible → (∀ m ∈ ms, m.1.isSome = true ∧ m.2.Legible) → ∀ {depth : Nat} (rest : List Char),
      (renderString (some k) ++ ':' :: d.render ++ renderMembers ms).length ≤ depth →
        readMembers depth (renderString (some k) ++ ':' :: d.render ++ renderMembers ms ++ rest)
          = some ((some k, d) :: ms, rest)
  | k, d, ms, _, _, 0, rest, hdepth => by cases hdepth
  | k, d, [], hd, _, depth + 1, rest, hdepth => by
    have hstops : Stops ('}' :: rest) := .inr (.inr rfl)
    rw [renderMembers, List.length_append, List.length_append, List.length_cons,
      List.length_singleton] at hdepth
    have hrest : renderString (some k) ++ ':' :: d.render ++ renderMembers [] ++ rest
        = renderString (some k) ++ ':' :: (d.render ++ '}' :: rest) := by simp [renderMembers]
    obtain ⟨cs, hcs, hread⟩ := readString_renderString k (':' :: (d.render ++ '}' :: rest))
    rw [hrest, hcs, readMembers_quote hread, readValue_render hd hstops (by omega)]
    rfl
  | k, d, (none, d') :: ms, _, hms, depth + 1, rest, _ =>
    absurd (hms _ List.mem_cons_self).1 Bool.false_ne_true
  | k, d, (some k', d') :: ms, hd, hms, depth + 1, rest, hdepth => by
    obtain ⟨⟨-, hd'⟩, hms⟩ := List.forall_mem_cons.1 hms
    -- what is left of the members after the first comma
    let tail := renderString (some k') ++ ':' :: d'.render ++ renderMembers ms
    have hstops : Stops (',' :: (tail ++ rest)) := .inl rfl
    have htail : renderMembers ((some k', d') :: ms) = ',' :: tail := by
      rw [renderMembers, List.cons_append, List.cons_append]
    rw [htail, List.length_append, List.length_append, List.length_cons, List.length_cons] at hdepth
    have hrest : renderString (some k) ++ ':' :: d.render ++ renderMembers ((some k', d') :: ms) ++ rest
        = renderString (some k) ++ ':' :: (d.render ++ ',' :: (tail ++ rest)) := by simp [htail]
    obtain ⟨cs, hcs, hread⟩ := readString_renderString k (':' :: (d.render ++ ',' :: (tail ++ rest)))
    rw [hrest, hcs, readMembers_quote hread, readValue_render hd hstops (by omega)]
    change ((readMembers depth (tail ++ rest)).bind fun p => some ((some k, d) :: p.1, p.2)) = _
    rw [readMembers_render hd' hms rest (show tail.length ≤ depth by omega)]
    rfl

end

/-- **A legible document is read back from its text.** -/
theorem read_toText {d : Document} (h : d.Legible) : read d.toText = some d := by
  have hvalue : readValue (2 * d.render.length + 2) (d.render ++ []) = some (d, []) :=
    readValue_render h trivial (by omega)
  rw [List.append_nil] at hvalue
  unfold read toText
  rw [String.toList_ofList]
  change ((readValue (2 * d.render.length + 2) d.render).bind fun p =>
    if (skipBlanks p.2).isEmpty then some p.1 else none) = some d
  rw [hvalue]
  rfl

end Document

end ClusterCatalog
