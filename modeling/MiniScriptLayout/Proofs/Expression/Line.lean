import MiniScriptLayout.Proofs.Expression.Number
import MiniScriptLayout.Proofs.Expression.Sign
import MiniScriptLayout.Proofs.Token.Dropping
import MiniScriptLayout.Proofs.Token.Thinned

/-!
Lines of operands and operators of any length. Spacing leaves one space between each operand and
each operator, however they were spaced before; a unary minus stays with its operand, and a number
keeps the sign of its exponent. The sign of an exponent is first spaced like a sign between two
words, and then joined to its number again.
-/

namespace MiniScriptLayout
namespace Expression

open Text Spacing

/-- Spaces and tabs. -/
structure Gap where
  text : List Char
  blank : ∀ c ∈ text, c = ' ' ∨ c = '\t'

/-- A letter or an underscore. -/
def startsName (c : Char) : Bool :=
  c = '_' || ('a' ≤ c && c ≤ 'z') || ('A' ≤ c && c ≤ 'Z')

/-- An ASCII identifier. -/
structure Identifier where
  head : Char
  tail : List Char
  starts : startsName head = true
  goes : ∀ c ∈ tail, startsName c = true ∨ isAsciiDigit c = true

def Identifier.text (i : Identifier) : List Char :=
  i.head :: i.tail

/-- A number: digits, perhaps a fraction and perhaps an exponent. -/
structure Numeral where
  whole : Digits
  fraction : Option Digits
  exponent : Option (ExponentSign × Digits)

def Numeral.text (n : Numeral) : List Char :=
  mantissa n.whole n.fraction ++
    match n.exponent with
    | none => []
    | some (sign, digits) => 'e' :: (sign.text ++ digits.text)

inductive Atom where
  | name (i : Identifier)
  | number (n : Numeral)

def Atom.text : Atom → List Char
  | name i => i.text
  | number n => n.text

/-- An atom, perhaps with a unary minus. -/
structure Operand where
  negated : Bool
  atom : Atom

def Operand.text (o : Operand) : List Char :=
  operand o.negated o.atom.text

/-- What stands between two operands: an operator, a minus sign without blanks, or one with a blank
behind it. -/
inductive Joint where
  | operator (before : Gap) (sign : List Char) (known : sign ∈ operators) (behind : Gap)
  | tightMinus
  | minus (before behind : Gap) (spaced : behind.text ≠ [])

namespace Joint

def sign : Joint → List Char
  | operator _ sign _ _ => sign
  | tightMinus | minus _ _ _ => ['-']

def before : Joint → List Char
  | operator before _ _ _ | minus before _ _ => before.text
  | tightMinus => []

def behind : Joint → List Char
  | operator _ _ _ behind | minus _ behind _ => behind.text
  | tightMinus => []

def text (j : Joint) : List Char :=
  j.before ++ (j.sign ++ j.behind)

end Joint

/-- A line of operands with operators between them. -/
structure Line where
  first : Operand
  rest : List (Joint × Operand)

namespace Line

/-- The line as it is written. -/
def text (l : Line) : List Char :=
  l.first.text ++ l.rest.flatMap fun (j, o) => j.text ++ o.text

/-- The operands and operators of the line. -/
def tokens (l : Line) : List (List Char) :=
  l.first.text :: l.rest.flatMap fun (j, o) => [j.sign, o.text]

end Line

section Words

theorem isWordChar_of_startsName {c : Char} (hc : startsName c = true) : isWordChar c = true := by
  simp only [startsName] at hc
  simp [isWordChar, hc]

theorem isIdentifierChar_of_startsName {c : Char} (hc : startsName c = true) :
    Lexical.isIdentifierChar c = true := by
  simp only [startsName] at hc
  simp [Lexical.isIdentifierChar, hc]

theorem isAsciiDigit_of_startsName {c : Char} (hc : startsName c = true) :
    isAsciiDigit c = false := by
  have hhigh : 0x41 ≤ c.toNat := by
    simp only [startsName, Bool.or_eq_true, Bool.and_eq_true, decide_eq_true_eq, Char.le_def,
      UInt32.le_iff_toNat_le] at hc
    rcases hc with (rfl | h) | h
    · decide
    · exact le_trans (by decide) h.1
    · exact h.1
  simp only [isAsciiDigit, Bool.and_eq_false_iff, decide_eq_false_iff_not, Char.le_def,
    UInt32.le_iff_toNat_le]
  exact .inr fun h => absurd (le_trans hhigh h) (by decide)

theorem Identifier.isWord (i : Identifier) : IsWord i.text := by
  have hchars : ∀ c ∈ i.text, isWordChar c = true ∧ c ≠ '.' := by
    have hstart : ∀ {c}, startsName c = true → isWordChar c = true ∧ c ≠ '.' := fun hc =>
      ⟨isWordChar_of_startsName hc, fun hdot => by rw [hdot] at hc; cases hc⟩
    refine List.forall_mem_cons.2 ⟨hstart i.starts, fun c hc => ?_⟩
    rcases i.goes c hc with hc | hc
    · exact hstart hc
    · exact ⟨isWordChar_of_isAsciiDigit hc, ne_of_isAsciiDigit hc rfl⟩
  exact
    { ne_nil := List.cons_ne_nil _ _
      chars := fun c hc => (hchars c hc).1
      head := fun h => (hchars '.' (List.mem_of_mem_head? h)).2 rfl
      last := fun h => (hchars '.' (List.mem_of_getLast? h)).2 rfl }

namespace Digits

variable (d : Digits)

theorem isWord : IsWord d.text where
  ne_nil := d.ne_nil
  chars c hc := isWordChar_of_isAsciiDigit (d.digit c hc)
  head h := ne_of_isAsciiDigit (d.digit '.' (List.mem_of_mem_head? h)) rfl rfl
  last h := ne_of_isAsciiDigit (d.digit '.' (List.mem_of_getLast? h)) rfl rfl

/-- Digits behind a word and characters of words go on with it. -/
theorem isWord_append {w s : List Char} (hw : IsWord w) (hs : ∀ c ∈ s, isWordChar c = true) :
    IsWord (w ++ (s ++ d.text)) where
  ne_nil := by simp [hw.ne_nil]
  chars := by
    simp only [List.forall_mem_append]
    exact ⟨hw.chars, hs, d.isWord.chars⟩
  head := by
    rw [List.head?_append_of_ne_nil _ hw.ne_nil]
    exact hw.head
  last := by
    rw [← List.append_assoc, List.getLast?_append_of_ne_nil _ d.ne_nil]
    exact d.isWord.last

end Digits

theorem isWord_mantissa (whole : Digits) (fraction : Option Digits) :
    IsWord (mantissa whole fraction) := by
  cases fraction with
  | none =>
      rw [mantissa, List.append_nil]
      exact whole.isWord
  | some digits =>
      exact digits.isWord_append (s := ['.']) whole.isWord (List.forall_mem_singleton.2 rfl)

end Words

namespace Atom

/-- The first word of the atom. It ends before the sign of an exponent. -/
def word : Atom → List Char
  | name i => i.text
  | number ⟨whole, fraction, none⟩ => mantissa whole fraction
  | number ⟨whole, fraction, some (.none, digits)⟩ => mantissa whole fraction ++ 'e' :: digits.text
  | number ⟨whole, fraction, some _⟩ => mantissa whole fraction ++ ['e']

/-- The sign of an exponent with the digits behind it. -/
def links : Atom → List Link
  | number ⟨_, _, some (.plus, digits)⟩ => [⟨[], ['+'], [], false, digits.text⟩]
  | number ⟨_, _, some (.minus, digits)⟩ => [⟨[], ['-'], [], false, digits.text⟩]
  | _ => []

theorem text_eq (a : Atom) : a.text = a.word ++ chain a.links := by
  match a with
  | name i => exact (List.append_nil _).symm
  | number ⟨whole, fraction, none⟩ => rfl
  | number ⟨whole, fraction, some (.none, digits)⟩ => exact (List.append_nil _).symm
  | number ⟨whole, fraction, some (.plus, digits)⟩ =>
      simp [text, Numeral.text, word, links, chain, Link.text, operand, ExponentSign.text]
  | number ⟨whole, fraction, some (.minus, digits)⟩ =>
      simp [text, Numeral.text, word, links, chain, Link.text, operand, ExponentSign.text]

theorem isWord_word (a : Atom) : IsWord a.word := by
  have hletter : ∀ {w : List Char}, IsWord w → IsWord (w ++ ['e']) := fun hw =>
    { ne_nil := by simp
      chars := List.forall_mem_append.2 ⟨hw.chars, List.forall_mem_singleton.2 rfl⟩
      head := by
        rw [List.head?_append_of_ne_nil _ hw.ne_nil]
        exact hw.head
      last := by simp }
  match a with
  | name i => exact i.isWord
  | number ⟨whole, fraction, none⟩ => exact isWord_mantissa whole fraction
  | number ⟨whole, fraction, some (.none, digits)⟩ =>
      exact digits.isWord_append (s := ['e']) (isWord_mantissa whole fraction)
        (List.forall_mem_singleton.2 rfl)
  | number ⟨whole, fraction, some (.plus, _)⟩ => exact hletter (isWord_mantissa whole fraction)
  | number ⟨whole, fraction, some (.minus, _)⟩ => exact hletter (isWord_mantissa whole fraction)

theorem valid_links (a : Atom) : ∀ l ∈ a.links, l.Valid := by
  have htight : ∀ {sign : List Char} (digits : Digits), sign ∈ operators ∨ sign = ['-'] →
      (⟨[], sign, [], false, digits.text⟩ : Link).Valid := fun digits hsign =>
    { before := by simp
      behind := by simp
      sign := hsign.imp_right fun h => ⟨h, fun _ => rfl⟩
      word := digits.isWord }
  match a with
  | name _ => simp [links]
  | number ⟨_, _, none⟩ => simp [links]
  | number ⟨_, _, some (.none, _)⟩ => simp [links]
  | number ⟨_, _, some (.plus, digits)⟩ =>
      exact List.forall_mem_singleton.2 (htight digits (.inl (by decide)))
  | number ⟨_, _, some (.minus, digits)⟩ =>
      exact List.forall_mem_singleton.2 (htight digits (.inr rfl))

end Atom

section Joining

variable {r : List Char}

/-- No number starts at this character. -/
theorem read?_eq_none {c : Char} (hdigit : isAsciiDigit c = false) (hdot : c ≠ '.') :
    Scientific.read? (c :: r) = none := by
  simp [Scientific.read?, Scientific.readMantissa?, cutOne, hdot, hdigit]

/-- A space or a sign stands for itself, and a number may start behind it. -/
theorem joinExponentsFrom_apart {c : Char} (hname : Lexical.isIdentifierChar c = false)
    (hdot : c ≠ '.') (inName : Bool) :
    joinExponentsFrom inName (c :: r) = c :: joinExponentsFrom false r := by
  have hdigit : isAsciiDigit c = false := by
    cases h : isAsciiDigit c with
    | false => rfl
    | true => rw [isIdentifierChar_of_isAsciiDigit h] at hname; cases hname
  rw [joinExponentsFrom_none (read?_eq_none hdigit hdot), hname]

theorem joinExponentsFrom_sign {sign : List Char} (hsign : ∀ c ∈ sign, takesEquals c = true) :
    joinExponentsFrom false (sign ++ r) = sign ++ joinExponentsFrom false r := by
  refine append_of_passes (fun c hc r => ?_) r
  have hname : Lexical.isIdentifierChar c = false := by
    simpa using
      all_of_takesEquals (p := fun d => !Lexical.isIdentifierChar d) (by decide) (hsign c hc)
  have hdot : c ≠ '.' := by
    rintro rfl
    exact absurd (hsign _ hc) (by decide)
  exact joinExponentsFrom_apart hname hdot false

theorem Identifier.joinExponentsFrom_text (i : Identifier) :
    joinExponentsFrom false (i.text ++ r) = i.text ++ joinExponentsFrom true r := by
  have hdot : i.head ≠ '.' := by
    intro h
    have := i.starts
    rw [h] at this
    cases this
  have htail : ∀ c ∈ i.tail, Lexical.isIdentifierChar c = true := fun c hc =>
    (i.goes c hc).elim isIdentifierChar_of_startsName isIdentifierChar_of_isAsciiDigit
  rw [Identifier.text, List.cons_append,
    joinExponentsFrom_none (read?_eq_none (isAsciiDigit_of_startsName i.starts) hdot),
    isIdentifierChar_of_startsName i.starts, joinExponentsFrom_name htail, List.cons_append]

/-- The sign of an exponent loses the spaces around it. -/
theorem Atom.joinExponentsFrom_text (a : Atom) (hr : Ends r) :
    joinExponentsFrom false (a.word ++ (chain (a.links.map Link.spaced) ++ r)) =
      a.text ++ joinExponentsFrom true r := by
  match a with
  | name i => exact i.joinExponentsFrom_text
  | number ⟨whole, fraction, none⟩ =>
      simpa [word, links, chain, text, Numeral.text] using
        joinExponentsFrom_mantissa whole fraction hr
  | number ⟨whole, fraction, some (.none, digits)⟩ =>
      simpa [word, links, chain, text, Numeral.text, ExponentSign.text] using
        joinExponentsFrom_exponent whole fraction .none digits [] (by simp) hr.stopsDigits
  | number ⟨whole, fraction, some (.plus, digits)⟩ =>
      simpa [word, links, chain, text, Numeral.text, ExponentSign.text, Link.text, Link.spaced,
        operand] using
        joinExponentsFrom_exponent whole fraction .plus digits [' ']
          (by simp [isBlank]) hr.stopsDigits
  | number ⟨whole, fraction, some (.minus, digits)⟩ =>
      simpa [word, links, chain, text, Numeral.text, ExponentSign.text, Link.text, Link.spaced,
        operand] using
        joinExponentsFrom_exponent whole fraction .minus digits [' ']
          (by simp [isBlank]) hr.stopsDigits

theorem Operand.joinExponentsFrom_text (o : Operand) (hr : Ends r) :
    joinExponentsFrom false
        (operand o.negated o.atom.word ++ (chain (o.atom.links.map Link.spaced) ++ r)) =
      o.text ++ joinExponentsFrom true r := by
  rw [Operand.text]
  cases o.negated with
  | false => exact o.atom.joinExponentsFrom_text hr
  | true =>
      rw [operand, operand, if_pos rfl, if_pos rfl, List.cons_append,
        joinExponentsFrom_apart (by decide) (by decide), o.atom.joinExponentsFrom_text hr,
        List.cons_append]

end Joining

namespace Joint

/-- The joint with the first word of the operand behind it. -/
def link (j : Joint) (o : Operand) : Link where
  before := j.before
  sign := j.sign
  behind := j.behind
  negated := o.negated
  word := o.atom.word

theorem valid_link (j : Joint) (o : Operand) : (j.link o).Valid := by
  have hgap : ∀ (g : Gap), ∀ c ∈ g.text, isBlank c = true := fun g c hc => by
    rcases g.blank c hc with rfl | rfl <;> rfl
  cases j with
  | operator before sign known behind =>
      exact ⟨hgap before, hgap behind, .inl known, o.atom.isWord_word⟩
  | tightMinus =>
      exact ⟨by simp [link, Joint.before], by simp [link, Joint.behind],
        .inr ⟨rfl, fun _ => rfl⟩, o.atom.isWord_word⟩
  | minus before behind hspaced =>
      exact ⟨hgap before, hgap behind, .inr ⟨rfl, fun hnil => absurd hnil hspaced⟩,
        o.atom.isWord_word⟩

end Joint

/-- The links of joints with their operands. -/
def linksOf (rest : List (Joint × Operand)) : List Link :=
  rest.flatMap fun (j, o) => j.link o :: o.atom.links

theorem linksOf_cons (j : Joint) (o : Operand) (rest : List (Joint × Operand)) :
    linksOf ((j, o) :: rest) = j.link o :: (o.atom.links ++ linksOf rest) :=
  List.flatMap_cons

theorem valid_linksOf (rest : List (Joint × Operand)) : ∀ l ∈ linksOf rest, l.Valid := by
  intro l hl
  obtain ⟨⟨j, o⟩, -, hl⟩ := List.mem_flatMap.1 hl
  rcases List.mem_cons.1 hl with rfl | hl
  · exact j.valid_link o
  · exact o.atom.valid_links l hl

theorem chain_append (links more : List Link) : chain (links ++ more) = chain links ++ chain more :=
  List.flatMap_append

theorem chain_linksOf (rest : List (Joint × Operand)) :
    chain (linksOf rest) = rest.flatMap fun (j, o) => j.text ++ o.text := by
  have hoperand : ∀ o : Operand, operand o.negated o.atom.word ++ chain o.atom.links = o.text := by
    intro o
    rw [Operand.text, o.atom.text_eq]
    cases o.negated <;> simp [operand]
  induction rest with
  | nil => rfl
  | cons head rest ih =>
      obtain ⟨j, o⟩ := head
      simp only [linksOf_cons, chain_cons, chain_append, ih, Link.text, Joint.link, Joint.text,
        List.flatMap_cons, ← hoperand, List.append_assoc]

theorem ends_chain (rest : List (Joint × Operand)) :
    Ends (chain ((linksOf rest).map Link.spaced)) := by
  cases rest with
  | nil => exact .inl rfl
  | cons head rest =>
      obtain ⟨j, o⟩ := head
      obtain ⟨c, s, hs, hc, -⟩ := (j.valid_link o).sign_eq
      have hspaced : (j.link o).spaced.text =
          ' ' :: c :: (s ++ ' ' :: operand o.negated o.atom.word) := by
        rw [Link.text, Link.spaced, hs]
        rfl
      rw [linksOf_cons, List.map_cons, chain_cons, hspaced]
      exact .inr ⟨c, _, rfl, hc⟩

/-- Behind an operand the signs and operands stay as they are, and each exponent is joined. -/
theorem joinExponentsFrom_rest (rest : List (Joint × Operand)) :
    joinExponentsFrom true (chain ((linksOf rest).map Link.spaced)) =
      rest.flatMap fun (j, o) => ' ' :: (j.sign ++ ' ' :: o.text) := by
  induction rest with
  | nil => simp [linksOf, chain, joinExponentsFrom]
  | cons head rest ih =>
      obtain ⟨j, o⟩ := head
      -- a number may start behind a space or a sign, but none of them is part of one
      have hspace : ∀ (inName : Bool) (r : List Char),
          joinExponentsFrom inName (' ' :: r) = ' ' :: joinExponentsFrom false r :=
        fun inName r => joinExponentsFrom_apart (by decide) (by decide) inName
      have htext : chain ((linksOf ((j, o) :: rest)).map Link.spaced) =
          ' ' :: (j.sign ++ ' ' :: (operand o.negated o.atom.word ++
            (chain (o.atom.links.map Link.spaced) ++ chain ((linksOf rest).map Link.spaced)))) := by
        rw [linksOf_cons, List.map_cons, chain_cons, List.map_append, chain_append,
          Link.text_append]
        rfl
      have hsign : ∀ c ∈ j.sign, takesEquals c = true := (j.valid_link o).mem_sign
      rw [htext, hspace, joinExponentsFrom_sign hsign, hspace,
        o.joinExponentsFrom_text (ends_chain rest), ih, List.flatMap_cons]
      simp only [List.cons_append, List.append_assoc]

theorem join_tokens (first : List Char) (rest : List (Joint × Operand)) :
    Text.join ' ' (first :: rest.flatMap fun (j, o) => [j.sign, o.text]) =
      first ++ rest.flatMap fun (j, o) => ' ' :: (j.sign ++ ' ' :: o.text) := by
  induction rest generalizing first with
  | nil => simp [Text.join]
  | cons head rest ih =>
      obtain ⟨j, o⟩ := head
      simp only [List.flatMap_cons, List.cons_append, List.nil_append, Text.join, ih,
        List.append_assoc]

/-- Spacing leaves one space between the operands and operators of a line. -/
theorem normalize_eq_join_tokens (l : Line) : normalize l.text = Text.join ' ' l.tokens := by
  have htext : l.text = operand l.first.negated l.first.atom.word ++
      chain (l.first.atom.links ++ linksOf l.rest) := by
    rw [Line.text, chain_append, chain_linksOf, Operand.text, l.first.atom.text_eq]
    cases l.first.negated <;> simp [operand]
  have hvalid : ∀ k ∈ l.first.atom.links ++ linksOf l.rest, k.Valid :=
    List.forall_mem_append.2 ⟨l.first.atom.valid_links, valid_linksOf l.rest⟩
  have hspaced := beforeExponents_chain l.first.atom.isWord_word l.first.negated hvalid
  -- after this nothing is left to drop, as there are no brackets
  have hjoined : joinExponents (beforeExponents l.text) = Text.join ' ' l.tokens := by
    rw [htext, hspaced, List.map_append, chain_append, joinExponents,
      l.first.joinExponentsFrom_text (ends_chain l.rest), joinExponentsFrom_rest, Line.tokens,
      join_tokens]
  have hchars : ∀ c ∈ Text.join ' ' l.tokens, isChainChar c = true := by
    intro c hc
    rw [← hjoined] at hc
    rcases (thinned_joinExponents _).mem hc with hc | rfl
    · rw [htext, hspaced] at hc
      exact mem_chain l.first.atom.isWord_word _
        (List.forall_mem_map.2 fun k hk => (hvalid k hk).spaced) c hc
    · rfl
  have hopener : '(' ∉ Text.join ' ' l.tokens := fun hmem => absurd (hchars '(' hmem) (by decide)
  have hcloser : ∀ c ∈ Text.join ' ' l.tokens, closesItems c = false := by
    intro c hc
    have hchar := hchars c hc
    simp only [closesItems, Bool.or_eq_false_iff, decide_eq_false_iff_not]
    constructor <;> rintro rfl <;> exact absurd hchar (by decide)
  change dropEmptyParameters (dropTrailingCommas (joinExponents (beforeExponents l.text))) = _
  rw [hjoined, dropTrailingCommas_eq_self hcloser, dropEmptyParameters_eq_self (.inr hopener)]

example : normalize "a-=-1.5e-10 *b--2".toList = "a -= -1.5e-10 * b - -2".toList := by cbv

end Expression
end MiniScriptLayout
