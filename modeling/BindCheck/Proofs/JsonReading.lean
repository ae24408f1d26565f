import BindCheck.Text.JsonString
import Mathlib.Data.List.Basic
import Mathlib.Data.List.TakeDrop

/-!
# BindCheck.Proofs.JsonReading

**Texts in JSON, and how they are read.** `Json.read` reads any text in JSON: blanks may stand
between its signs, a string may hold any escape, units of UTF-16 among them, and a number may have
a sign, a fraction and an exponent. A number is kept as a decimal, so `1` and `1.0` stay apart.

`Json.write` is the compact form of a value: no blanks, and the escapes of `JsonString.encode`.
**What is written is read back** (`Json.read_write`), whatever strings the value holds, and there is
no control character in it (`Json.noControls_write`), so a value takes one line.
-/

namespace BindCheck

/-- A value in JSON; `number m e` is the decimal `m * 10 ^ e`. -/
inductive Json where
  | null
  | bool (b : Bool)
  | number (mantissa exponent : Int)
  | string (s : String)
  | array (values : List Json)
  | object (members : List (String × Json))
  deriving Repr

namespace Json

/-! ### Signs and blanks -/

/-- Whether a character may stand between the signs of a text. -/
def isSpace (c : Char) : Bool := c == ' ' || c == '\t' || c == '\n' || c == '\r'

/-- What is left behind the blanks. -/
def skip (cs : List Char) : List Char := cs.dropWhile isSpace

/-- What is left behind a sign, if it is next. -/
def sign? (c : Char) (cs : List Char) : Option (List Char) :=
  match skip cs with
  | [] => none
  | d :: cs => if d = c then some cs else none

/-! ### Strings -/

/-- The value of a hexadecimal digit, a capital or a small one. -/
def hexValue? (c : Char) : Option Nat :=
  if c.isDigit then some (c.toNat - '0'.toNat)
  else if 'a' ≤ c ∧ c ≤ 'f' then some (c.toNat - 'a'.toNat + 10)
  else if 'A' ≤ c ∧ c ≤ 'F' then some (c.toNat - 'A'.toNat + 10)
  else none

/-- The unit of UTF-16 that four digits stand for. -/
def unit? (a b c d : Char) : Option Nat := do
  let a ← hexValue? a
  let b ← hexValue? b
  let c ← hexValue? c
  let d ← hexValue? d
  some (((a * 16 + b) * 16 + c) * 16 + d)

/-- Whether a unit is the first of a pair. -/
def isHigh (u : Nat) : Bool := 0xd800 ≤ u && u < 0xdc00

/-- Whether a unit is the second of a pair. -/
def isLow (u : Nat) : Bool := 0xdc00 ≤ u && u < 0xe000

/-- The character that a pair of units stands for. -/
def ofPair (u v : Nat) : Char := Char.ofNat (0x10000 + (u - 0xd800) * 0x400 + (v - 0xdc00))

/-- What a character behind a backslash stands for. -/
def unescape? : Char → Option Char
  | '"' => some '"'
  | '\\' => some '\\'
  | '/' => some '/'
  | 'b' => some '\x08'
  | 'f' => some '\x0c'
  | 'n' => some '\n'
  | 'r' => some '\r'
  | 't' => some '\t'
  | _ => none

/-- Puts a character in front of what has been read of a string. -/
def before (c : Char) (r : Option (List Char × List Char)) : Option (List Char × List Char) :=
  r.map fun (s, rest) => (c :: s, rest)

/-- Reads a string up to its closing quote, and says what is behind it. A unit that is half of a
pair has to stand next to the other half. -/
def stringBody : List Char → Option (List Char × List Char)
  | '\\' :: 'u' :: a :: b :: c :: d :: cs => do
    let u ← unit? a b c d
    if isLow u then none
    else if isHigh u then
      match cs with
      | '\\' :: 'u' :: a :: b :: c :: d :: cs => do
        let v ← unit? a b c d
        if isLow v then before (ofPair u v) (stringBody cs) else none
      | _ => none
    else before (Char.ofNat u) (stringBody cs)
  | '\\' :: c :: cs => do
    let c ← unescape? c
    before c (stringBody cs)
  | '"' :: cs => some ([], cs)
  | c :: cs => if c = '\\' ∨ c.toNat < 32 then none else before c (stringBody cs)
  | [] => none

/-! ### Numbers -/

/-- The digits that are next, one at least. -/
def digits? (cs : List Char) : Option (List Char × List Char) :=
  let (ds, rest) := cs.span Char.isDigit
  if ds = [] then none else some (ds, rest)

/-- The digits in front of the fraction. Only a single zero begins with a zero. -/
def whole? (cs : List Char) : Option (List Char × List Char) := do
  let (ds, rest) ← digits? cs
  if ds.head? = some '0' ∧ ds ≠ ['0'] then none else some (ds, rest)

/-- The digits of a fraction, which may be left out. -/
def fraction? : List Char → Option (List Char × List Char)
  | '.' :: cs => digits? cs
  | cs => some ([], cs)

/-- Whether there is a minus. -/
def minus : List Char → Bool × List Char
  | '-' :: cs => (true, cs)
  | cs => (false, cs)

/-- The number that digits and a minus stand for. -/
def signed (negative : Bool) (ds : List Char) : Int :=
  let n : Int := Nat.ofDigitChars 10 ds 0
  if negative then -n else n

/-- The exponent of a number, which may be left out. A plus means nothing. -/
def exponent? : List Char → Option (Int × List Char)
  | [] => some (0, [])
  | c :: cs =>
    if c = 'e' ∨ c = 'E' then do
      let (negative, cs) := if cs.head? = some '+' then (false, cs.tail) else minus cs
      let (ds, cs) ← digits? cs
      some (signed negative ds, cs)
    else some (0, c :: cs)

/-- Reads a number. -/
def number? (cs : List Char) : Option (Json × List Char) := do
  let (negative, cs) := minus cs
  let (ds, cs) ← whole? cs
  let (fs, cs) ← fraction? cs
  let (e, cs) ← exponent? cs
  some (number (signed negative (ds ++ fs)) (e - fs.length), cs)

/-! ### Values -/

/-- Reads items with commas between them, and the sign that closes them. -/
def items {α : Type} (item : List Char → Option (α × List Char)) (close : Char) :
    Nat → List Char → Option (List α × List Char)
  | 0, _ => none
  | bound + 1, cs => do
    let (x, cs) ← item cs
    match sign? ',' cs with
    | some cs => do
      let (xs, cs) ← items item close bound cs
      some (x :: xs, cs)
    | none => do
      let cs ← sign? close cs
      some ([x], cs)

/-- Reads items, of which there may be none. -/
def group {α : Type} (item : List Char → Option (α × List Char)) (close : Char) (bound : Nat)
    (cs : List Char) : Option (List α × List Char) :=
  match sign? close cs with
  | some cs => some ([], cs)
  | none => items item close bound cs

/-- Reads a member of an object. -/
def member (value : List Char → Option (Json × List Char)) (cs : List Char) :
    Option ((String × Json) × List Char) := do
  let cs ← sign? '"' cs
  let (key, cs) ← stringBody cs
  let cs ← sign? ':' cs
  let (v, cs) ← value cs
  some ((String.ofList key, v), cs)

/-- Reads a value, and says what is behind it. A step takes a character, so there need be no more
steps than characters. -/
def value : Nat → List Char → Option (Json × List Char)
  | 0, _ => none
  | bound + 1, cs =>
    match skip cs with
    | 'n' :: 'u' :: 'l' :: 'l' :: cs => some (null, cs)
    | 't' :: 'r' :: 'u' :: 'e' :: cs => some (bool true, cs)
    | 'f' :: 'a' :: 'l' :: 's' :: 'e' :: cs => some (bool false, cs)
    | '"' :: cs => do
      let (s, cs) ← stringBody cs
      some (string (String.ofList s), cs)
    | '[' :: cs => do
      let (vs, cs) ← group (value bound) ']' bound cs
      some (array vs, cs)
    | '\x7b' :: cs => do
      let (ms, cs) ← group (member (value bound)) '\x7d' bound cs
      some (object ms, cs)
    | cs => number? cs

/-- **Reads a text in JSON**: one value, with blanks around it. -/
def read (cs : List Char) : Option Json := do
  let (v, rest) ← value cs.length cs
  if skip rest = [] then some v else none

/-! ### The compact form -/

/-- A whole number in decimal. -/
def writeInt (m : Int) : List Char := (if m < 0 then ['-'] else []) ++ Nat.toDigits 10 m.natAbs

theorem writeInt_natCast (n : Nat) : writeInt n = Nat.toDigits 10 n := by
  rw [writeInt, if_neg (Int.not_lt.mpr (Int.natCast_nonneg n)), Int.natAbs_natCast]
  rfl

/-- An exponent, if it is not zero. -/
def writeExponent (e : Int) : List Char := if e = 0 then [] else 'e' :: writeInt e

/-- Items with commas between them and signs around them. -/
def bracket (opening close : Char) (ws : List (List Char)) : List Char :=
  opening :: ([','].intercalate ws ++ [close])

mutual

/-- **The compact form of a value.** -/
def write : Json → List Char
  | null => ['n', 'u', 'l', 'l']
  | bool true => ['t', 'r', 'u', 'e']
  | bool false => ['f', 'a', 'l', 's', 'e']
  | number m e => writeInt m ++ writeExponent e
  | string s => JsonString.encode s.toList
  | array vs => bracket '[' ']' (writeAll vs)
  | object ms => bracket '\x7b' '\x7d' (writeMembers ms)

/-- The compact forms of several values. -/
def writeAll : List Json → List (List Char)
  | [] => []
  | v :: vs => v.write :: writeAll vs

/-- The compact forms of the members of an object. -/
def writeMembers : List (String × Json) → List (List Char)
  | [] => []
  | (key, v) :: ms => (JsonString.encode key.toList ++ ':' :: v.write) :: writeMembers ms

end

/-! ### What is written of a string is read -/

theorem hexValue?_hexDigit : ∀ n < 16, hexValue? (JsonString.hexDigit n) = some n := by
  decide

/-- A control character is written as a unit of its own. -/
theorem unit?_of_control {c : Char} (h : c.toNat < 32) :
    unit? '0' '0' (JsonString.hexDigit (c.toNat / 16)) (JsonString.hexDigit (c.toNat % 16)) =
      some c.toNat := by
  have hzero : hexValue? '0' = some 0 := by decide
  have hhigh := hexValue?_hexDigit (c.toNat / 16) (by omega)
  have hlow := hexValue?_hexDigit (c.toNat % 16) (by omega)
  rw [unit?, hzero, hhigh, hlow]
  exact congrArg some (by omega)

theorem stringBody_plain {c : Char} (hquote : c ≠ '"') (hback : c ≠ '\\') (hc : ¬c.toNat < 32)
    (cs : List Char) : stringBody (c :: cs) = before c (stringBody cs) := by
  rw [stringBody, if_neg (not_or.mpr ⟨hback, hc⟩)] <;> simp [hquote, hback]

/-- **A character is read from what stands for it in a string.** -/
theorem stringBody_escape (c : Char) (cs : List Char) :
    stringBody (JsonString.escape c ++ cs) = before c (stringBody cs) := by
  unfold JsonString.escape
  split
  case h_8 hquote hback _ _ _ _ _ =>
    split
    case isTrue hcontrol =>
      have hunit := unit?_of_control hcontrol
      have hlow : isLow c.toNat = false := by simp [isLow]; omega
      have hhigh : isHigh c.toNat = false := by simp [isHigh]; omega
      simp [stringBody, hunit, hlow, hhigh]
    case isFalse hcontrol => exact stringBody_plain hquote hback hcontrol cs
  all_goals simp [stringBody, unescape?]

/-- **A string is read back up to its quote**, whatever is behind it. -/
theorem stringBody_encoded (cs rest : List Char) :
    stringBody (cs.flatMap JsonString.escape ++ '"' :: rest) = some (cs, rest) := by
  induction cs with
  | nil => simp [stringBody]
  | cons c cs ih =>
      rw [List.flatMap_cons, List.append_assoc, stringBody_escape, ih]
      rfl

/-! ### What is written of a number is read -/

/-- That a text does not go on with a number. -/
def EndsNumber (cs : List Char) : Prop :=
  ∀ c ∈ cs.head?, c.isDigit = false ∧ c ≠ '.' ∧ c ≠ 'e' ∧ c ≠ 'E'

/-- Only zero begins with a zero. -/
theorem eq_zero_of_head?_toDigits {n : Nat} (h : (Nat.toDigits 10 n).head? = some '0') : n = 0 := by
  induction n using Nat.strongRecOn with
  | ind n ih =>
      rw [Nat.toDigits_eq_if (by decide)] at h
      split at h
      case isTrue hn =>
        have hall : ∀ n < 10, n.digitChar = '0' → n = 0 := by decide
        exact hall n hn (Option.some.inj h)
      case isFalse hn =>
        rw [List.head?_append_of_ne_nil _ Nat.toDigits_ne_nil] at h
        have hzero := ih (n / 10) (by omega) h
        omega

section

variable {n : Nat} {rest : List Char}

theorem exists_toDigits (n : Nat) : ∃ d ds, Nat.toDigits 10 n = d :: ds ∧ d.isDigit = true := by
  obtain ⟨d, ds, hds⟩ := List.exists_cons_of_ne_nil (Nat.toDigits_ne_nil (n := n) (b := 10))
  exact ⟨d, ds, hds, Nat.isDigit_of_mem_toDigits (by decide) (by decide) (hds ▸ List.mem_cons_self)⟩

theorem digits?_toDigits (h : ∀ c ∈ rest.head?, c.isDigit = false) :
    digits? (Nat.toDigits 10 n ++ rest) = some (Nat.toDigits 10 n, rest) := by
  have hall : ∀ c ∈ Nat.toDigits 10 n, c.isDigit = true := fun c hc =>
    Nat.isDigit_of_mem_toDigits (by decide) (by decide) hc
  have hrest : rest.takeWhile Char.isDigit = [] ∧ rest.dropWhile Char.isDigit = rest := by
    cases rest with
    | nil => exact ⟨rfl, rfl⟩
    | cons c rest => simp [h c rfl]
  rw [digits?, List.span_eq_takeWhile_dropWhile, List.takeWhile_append_of_pos hall,
    List.dropWhile_append_of_pos hall, hrest.1, hrest.2, List.append_nil]
  exact if_neg Nat.toDigits_ne_nil

theorem whole?_toDigits (h : ∀ c ∈ rest.head?, c.isDigit = false) :
    whole? (Nat.toDigits 10 n ++ rest) = some (Nat.toDigits 10 n, rest) := by
  have hzero : ¬((Nat.toDigits 10 n).head? = some '0' ∧ Nat.toDigits 10 n ≠ ['0']) := by
    rintro ⟨hhead, hne⟩
    obtain rfl := eq_zero_of_head?_toDigits hhead
    exact hne rfl
  rw [whole?, digits?_toDigits h]
  exact if_neg hzero

theorem minus_writeInt (m : Int) :
    minus (writeInt m ++ rest) = (decide (m < 0), Nat.toDigits 10 m.natAbs ++ rest) := by
  by_cases hm : m < 0
  · simp [writeInt, hm, minus]
  · obtain ⟨d, ds, hds, hd⟩ := exists_toDigits m.natAbs
    have hne : d ≠ '-' := by
      rintro rfl
      exact absurd hd (by decide)
    simp [writeInt, hm, hds, minus, hne]

theorem signed_toDigits (m : Int) : signed (decide (m < 0)) (Nat.toDigits 10 m.natAbs) = m := by
  rw [signed, Nat.ofDigitChars_ten_toDigits]
  by_cases hm : m < 0
  · rw [decide_eq_true hm, if_pos rfl]
    omega
  · rw [decide_eq_false hm, if_neg Bool.false_ne_true]
    omega

theorem exponent?_writeExponent (e : Int) (h : EndsNumber rest) :
    exponent? (writeExponent e ++ rest) = some (e, rest) := by
  by_cases he : e = 0
  · rw [writeExponent, if_pos he, he]
    cases rest with
    | nil => rfl
    | cons c rest =>
        obtain ⟨-, -, he, hE⟩ := h c rfl
        exact if_neg (not_or.mpr ⟨he, hE⟩)
  · have hplus : (writeInt e ++ rest).head? ≠ some '+' := by
      obtain ⟨d, ds, hds, hd⟩ := exists_toDigits e.natAbs
      have hne : d ≠ '+' := by
        rintro rfl
        exact absurd hd (by decide)
      by_cases hm : e < 0 <;> simp [writeInt, hm, hds, hne]
    rw [writeExponent, if_neg he, List.cons_append, exponent?, if_pos (.inl rfl), if_neg hplus,
      minus_writeInt]
    simp only [digits?_toDigits fun c hc => (h c hc).1, signed_toDigits, Option.bind_eq_bind,
      Option.bind_some]

/-- **A number is read back** where no number goes on. -/
theorem number?_write (m e : Int) (h : EndsNumber rest) :
    number? (writeInt m ++ (writeExponent e ++ rest)) = some (number m e, rest) := by
  have hhead : ∀ c ∈ (writeExponent e ++ rest).head?, c.isDigit = false ∧ c ≠ '.' := by
    intro c hc
    by_cases he : e = 0
    · rw [writeExponent, if_pos he] at hc
      exact ⟨(h c hc).1, (h c hc).2.1⟩
    · rw [writeExponent, if_neg he] at hc
      obtain rfl := Option.some.inj hc
      decide
  have hfraction : fraction? (writeExponent e ++ rest) = some ([], writeExponent e ++ rest) := by
    rw [fraction?.eq_def]
    split
    case h_1 hdot => exact absurd rfl (hhead '.' (by rw [hdot]; rfl)).2
    case h_2 => rfl
  rw [number?, minus_writeInt]
  simp only [whole?_toDigits fun c hc => (hhead c hc).1, hfraction, exponent?_writeExponent e h,
    Option.bind_eq_bind, Option.bind_some, List.append_nil, signed_toDigits, List.length_nil]
  rw [Int.natCast_zero, Int.sub_zero]

end

/-! ### What is written of a value is read -/

/-- That a reader finds a thing where a text is written and no number goes on behind it. -/
def Reads {α : Type} (reader : List Char → Option (α × List Char)) (x : α) (w : List Char) : Prop :=
  ∀ rest, EndsNumber rest → reader (w ++ rest) = some (x, rest)

/-- That a text begins with a character that is no blank and closes nothing. -/
def Starts (w : List Char) : Prop :=
  ∃ c cs, w = c :: cs ∧ isSpace c = false ∧ c ≠ ']' ∧ c ≠ '\x7d'

theorem skip_cons {c : Char} (h : isSpace c = false) (cs : List Char) :
    skip (c :: cs) = c :: cs := by
  rw [skip, List.dropWhile_cons, h]
  rfl

theorem sign?_self {c : Char} (h : isSpace c = false) (cs : List Char) :
    sign? c (c :: cs) = some cs := by
  rw [sign?, skip_cons h]
  exact if_pos rfl

theorem sign?_of_ne {c d : Char} (h : isSpace d = false) (hne : d ≠ c) (cs : List Char) :
    sign? c (d :: cs) = none := by
  rw [sign?, skip_cons h]
  exact if_neg hne

theorem endsNumber_cons {c : Char} (h : c.isDigit = false ∧ c ≠ '.' ∧ c ≠ 'e' ∧ c ≠ 'E')
    (cs : List Char) : EndsNumber (c :: cs) := by
  intro d hd
  obtain rfl := Option.some.inj hd
  exact h

section

variable {α : Type} {item : List Char → Option (α × List Char)} {xs : List α}
  {ws : List (List Char)} {close : Char}

theorem length_le_intercalate {w : List Char} (hw : w ∈ ws) :
    w.length ≤ ([','].intercalate ws).length := by
  induction ws with
  | nil => exact absurd hw List.not_mem_nil
  | cons v ws ih =>
      cases ws with
      | nil => simp_all
      | cons u ws =>
          rw [List.intercalate_cons_cons, List.length_append, List.length_append]
          rcases List.mem_cons.mp hw with rfl | hw
          · omega
          · have hle := ih hw
            omega

theorem length_le_length_intercalate : ws.length ≤ ([','].intercalate ws).length + 1 := by
  induction ws with
  | nil => simp
  | cons v ws ih =>
      cases ws with
      | nil => simp
      | cons u ws =>
          rw [List.intercalate_cons_cons, List.length_append, List.length_append]
          simp only [List.length_cons, List.length_nil] at ih ⊢
          omega

/-- **Items with commas between them are read**, in as many steps as there are items. -/
theorem items_intercalate (hclose : close = ']' ∨ close = '\x7d')
    (h : List.Forall₂ (Reads item) xs ws) (hne : xs ≠ []) {bound : Nat} (hbound : ws.length ≤ bound)
    (rest : List Char) :
    items item close bound ([','].intercalate ws ++ close :: rest) = some (xs, rest) := by
  have hspace : isSpace close = false ∧ close ≠ ',' := by rcases hclose with rfl | rfl <;> decide
  have hends : EndsNumber (close :: rest) :=
    endsNumber_cons (by rcases hclose with rfl | rfl <;> decide) rest
  induction h generalizing bound with
  | nil => exact absurd rfl hne
  | @cons x w xs ws hitem hmore ih =>
      obtain ⟨bound, rfl⟩ : ∃ b, bound = b + 1 := Nat.exists_eq_add_one.mpr
        (Nat.lt_of_lt_of_le (Nat.succ_pos _) hbound)
      cases hmore with
      | nil =>
          rw [List.intercalate_singleton, items, hitem _ hends]
          simp only [Option.bind_eq_bind, Option.bind_some, sign?_of_ne hspace.1 hspace.2,
            sign?_self hspace.1]
      | @cons y v ys vs hnext hmore =>
          have hcomma : EndsNumber (',' :: ([','].intercalate (v :: vs) ++ close :: rest)) :=
            endsNumber_cons (by decide) _
          have htail := ih (List.cons_ne_nil y ys) (Nat.le_of_succ_le_succ hbound)
          rw [List.intercalate_cons_cons, List.append_assoc, List.append_assoc,
            List.singleton_append, items, hitem _ hcomma]
          simp only [Option.bind_eq_bind, Option.bind_some, sign?_self (c := ',') rfl, htail]

/-- **Items in brackets are read**, if there are any or not. -/
theorem group_intercalate (hclose : close = ']' ∨ close = '\x7d')
    (h : List.Forall₂ (Reads item) xs ws) (hstarts : ∀ w ∈ ws, Starts w) {bound : Nat}
    (hbound : ws.length ≤ bound) (rest : List Char) :
    group item close bound ([','].intercalate ws ++ close :: rest) = some (xs, rest) := by
  cases h with
  | nil =>
      have hspace : isSpace close = false := by rcases hclose with rfl | rfl <;> decide
      rw [List.intercalate_nil, List.nil_append, group, sign?_self hspace]
  | @cons x w xs ws hitem hmore =>
      have hitems :=
        items_intercalate hclose (.cons hitem hmore) (List.cons_ne_nil x xs) hbound rest
      obtain ⟨c, cs, rfl, hspace, hbracket, hbrace⟩ := hstarts w List.mem_cons_self
      have hne : c ≠ close := by rcases hclose with rfl | rfl <;> assumption
      obtain ⟨cs', hcs'⟩ :
          ∃ cs', [','].intercalate ((c :: cs) :: ws) ++ close :: rest = c :: cs' := by
        cases ws <;> simp
      rw [group, hcs', sign?_of_ne hspace hne, ← hcs']
      exact hitems

end

theorem reads_member {reader : List Char → Option (Json × List Char)} {v : Json} {w : List Char}
    (h : Reads reader v w) (key : String) :
    Reads (member reader) (key, v) (JsonString.encode key.toList ++ ':' :: w) := by
  intro rest hrest
  rw [JsonString.encode, member]
  simp only [List.cons_append, List.append_assoc, List.nil_append, sign?_self (c := '"') rfl,
    sign?_self (c := ':') rfl, stringBody_encoded, h rest hrest, Option.bind_eq_bind,
    Option.bind_some, String.ofList_toList]

/-- Neither a minus nor a digit is a blank or closes anything. -/
theorem not_isSpace_of_number {c : Char} (hc : c = '-' ∨ c.isDigit = true) :
    isSpace c = false ∧ c ≠ ']' ∧ c ≠ '\x7d' := by
  refine ⟨Bool.eq_false_iff.mpr fun hspace => ?_, ?_, ?_⟩
  · simp only [isSpace, Bool.or_eq_true, beq_iff_eq] at hspace
    rcases hspace with ((rfl | rfl) | rfl) | rfl <;> exact absurd hc (by decide)
  all_goals
    rintro rfl
    exact absurd hc (by decide)

/-- A text that begins as a number does is read as one. -/
theorem value_of_number {c : Char} (hc : c = '-' ∨ c.isDigit = true) (bound : Nat)
    (cs : List Char) : value (bound + 1) (c :: cs) = number? (c :: cs) := by
  rw [value, skip_cons (not_isSpace_of_number hc).1]
  split
  case h_7 => rfl
  all_goals
    rename_i heq
    obtain ⟨rfl, -⟩ := List.cons.inj heq
    exact absurd hc (by decide)

theorem exists_writeInt (m : Int) :
    ∃ c cs, writeInt m = c :: cs ∧ (c = '-' ∨ c.isDigit = true) := by
  obtain ⟨d, ds, hds, hd⟩ := exists_toDigits m.natAbs
  by_cases hm : m < 0
  · exact ⟨'-', d :: ds, by rw [writeInt, if_pos hm, hds]; rfl, .inl rfl⟩
  · exact ⟨d, ds, by rw [writeInt, if_neg hm, hds]; rfl, .inr hd⟩

theorem starts_write (v : Json) : Starts v.write := by
  cases v with
  | null | string s | array vs | object ms => exact ⟨_, _, rfl, by decide⟩
  | bool b => cases b <;> exact ⟨_, _, rfl, by decide⟩
  | number m e =>
      obtain ⟨c, cs, hcs, hc⟩ := exists_writeInt m
      exact ⟨c, cs ++ writeExponent e, by rw [write, hcs]; rfl, not_isSpace_of_number hc⟩

theorem starts_of_mem_writeAll {vs : List Json} : ∀ w ∈ writeAll vs, Starts w := by
  induction vs with
  | nil => exact fun w hw => absurd hw List.not_mem_nil
  | cons v vs ih => exact List.forall_mem_cons.mpr ⟨starts_write v, ih⟩

theorem starts_of_mem_writeMembers {ms : List (String × Json)} :
    ∀ w ∈ writeMembers ms, Starts w := by
  induction ms with
  | nil => exact fun w hw => absurd hw List.not_mem_nil
  | cons m ms ih => exact List.forall_mem_cons.mpr ⟨⟨_, _, rfl, by decide⟩, ih⟩

theorem length_bracket {opening close : Char} {ws : List (List Char)} {bound : Nat}
    (h : (bracket opening close ws).length ≤ bound + 1) :
    ws.length ≤ bound ∧ ∀ w ∈ ws, w.length ≤ bound := by
  rw [bracket, List.length_cons, List.length_append, List.length_singleton] at h
  have hitems : ws.length ≤ ([','].intercalate ws).length + 1 := length_le_length_intercalate
  refine ⟨by omega, fun w hw => ?_⟩
  have hle := length_le_intercalate hw
  omega

mutual

/-- **A value is read back** in as many steps as its text is long. -/
theorem reads_write : ∀ (v : Json) {bound : Nat}, v.write.length ≤ bound →
    Reads (value bound) v v.write
  | v, 0, h => by
      obtain ⟨c, cs, hcs, -⟩ := starts_write v
      rw [hcs] at h
      exact absurd h (Nat.not_succ_le_zero _)
  | null, bound + 1, _ | bool true, bound + 1, _ | bool false, bound + 1, _ => fun _ _ => rfl
  | number m e, bound + 1, _ => fun rest hrest => by
      obtain ⟨c, cs, hcs, hc⟩ := exists_writeInt m
      have hnumber := number?_write m e hrest
      rw [write, List.append_assoc]
      rw [hcs] at hnumber ⊢
      rw [List.cons_append, value_of_number hc]
      exact hnumber
  | string s, bound + 1, _ => fun rest _ => by
      rw [write, JsonString.encode, List.cons_append, List.append_assoc, value, skip_cons rfl]
      simp only [List.singleton_append, stringBody_encoded, Option.bind_eq_bind, Option.bind_some,
        String.ofList_toList]
  | array vs, bound + 1, h => fun rest _ => by
      rw [write] at h ⊢
      obtain ⟨hcount, hlengths⟩ := length_bracket h
      have hitems := reads_writeAll vs hlengths
      have hgroup := group_intercalate (.inl rfl) hitems starts_of_mem_writeAll hcount
        rest
      rw [bracket, List.cons_append, List.append_assoc, value, skip_cons rfl]
      simp only [List.singleton_append, hgroup, Option.bind_eq_bind, Option.bind_some]
  | object ms, bound + 1, h => fun rest _ => by
      rw [write] at h ⊢
      obtain ⟨hcount, hlengths⟩ := length_bracket h
      have hitems := reads_writeMembers ms hlengths
      have hgroup := group_intercalate (.inr rfl) hitems starts_of_mem_writeMembers
        hcount rest
      rw [bracket, List.cons_append, List.append_assoc, value, skip_cons rfl]
      simp only [List.singleton_append, hgroup, Option.bind_eq_bind, Option.bind_some]

theorem reads_writeAll : ∀ (vs : List Json) {bound : Nat}, (∀ w ∈ writeAll vs, w.length ≤ bound) →
    List.Forall₂ (Reads (value bound)) vs (writeAll vs)
  | [], _, _ => .nil
  | v :: vs, _, h =>
      have ⟨hv, hvs⟩ := List.forall_mem_cons.mp h
      .cons (reads_write v hv) (reads_writeAll vs hvs)

theorem reads_writeMembers : ∀ (ms : List (String × Json)) {bound : Nat},
    (∀ w ∈ writeMembers ms, w.length ≤ bound) →
      List.Forall₂ (Reads (member (value bound))) ms (writeMembers ms)
  | [], _, _ => .nil
  | (key, v) :: ms, bound, h => by
      obtain ⟨hm, hms⟩ := List.forall_mem_cons.mp h
      rw [List.length_append, List.length_cons] at hm
      have hv : v.write.length ≤ bound := by omega
      exact .cons (reads_member (reads_write v hv) key) (reads_writeMembers ms hms)

end

/-- **A value is read back from its compact form.** -/
theorem read_write (v : Json) : read v.write = some v := by
  have hread := reads_write v (Nat.le_refl _) [] (fun c hc => absurd hc (Option.not_mem_none c))
  rw [List.append_nil] at hread
  rw [read, hread]
  rfl

/-! ### Values take one line -/

/-- That there is no control character in a text. -/
def NoControls (w : List Char) : Prop := ∀ c ∈ w, 32 ≤ c.toNat

instance (w : List Char) : Decidable (NoControls w) := List.decidableBAll _ w

theorem noControls_append {w w' : List Char} :
    NoControls (w ++ w') ↔ NoControls w ∧ NoControls w' :=
  List.forall_mem_append

theorem noControls_cons {c : Char} {w : List Char} :
    NoControls (c :: w) ↔ 32 ≤ c.toNat ∧ NoControls w :=
  List.forall_mem_cons

theorem noControls_escape (c : Char) : NoControls (JsonString.escape c) := by
  unfold JsonString.escape
  split
  case h_8 =>
    split
    case isTrue hcontrol =>
      have hdigits : ∀ n < 16, 32 ≤ (JsonString.hexDigit n).toNat := by decide
      have hhigh := hdigits (c.toNat / 16) (by omega)
      have hlow := hdigits (c.toNat % 16) (by omega)
      simp [NoControls, hhigh, hlow]
    case isFalse hcontrol => exact noControls_cons.mpr ⟨Nat.not_lt.mp hcontrol, by decide⟩
  all_goals decide

theorem noControls_encode (cs : List Char) : NoControls (JsonString.encode cs) := by
  have hbody : NoControls (cs.flatMap JsonString.escape) := by
    intro c hc
    obtain ⟨d, -, hd⟩ := List.mem_flatMap.mp hc
    exact noControls_escape d c hd
  rw [JsonString.encode, noControls_cons, noControls_append]
  exact ⟨by decide, hbody, by decide⟩

theorem noControls_writeInt (m : Int) : NoControls (writeInt m) := by
  refine noControls_append.mpr ⟨by split <;> decide, fun c hc => ?_⟩
  have hdigit : c.isDigit = true := Nat.isDigit_of_mem_toDigits (by decide) (by decide) hc
  rw [Char.isDigit_iff_toNat] at hdigit
  exact Nat.le_trans (by decide) hdigit.1

theorem noControls_writeExponent (e : Int) : NoControls (writeExponent e) := by
  rw [writeExponent]
  split
  · decide
  · exact noControls_cons.mpr ⟨by decide, noControls_writeInt e⟩

theorem noControls_bracket {opening close : Char} {ws : List (List Char)}
    (hopening : 32 ≤ opening.toNat) (hclose : 32 ≤ close.toNat) (hws : ∀ w ∈ ws, NoControls w) :
    NoControls (bracket opening close ws) := by
  have hitems : NoControls ([','].intercalate ws) := by
    induction ws with
    | nil => decide
    | cons w ws ih =>
        obtain ⟨hw, hws⟩ := List.forall_mem_cons.mp hws
        cases ws with
        | nil => rwa [List.intercalate_singleton]
        | cons v vs =>
            rw [List.intercalate_cons_cons, noControls_append, noControls_append]
            exact ⟨⟨hw, by decide⟩, ih hws⟩
  rw [bracket, noControls_cons, noControls_append, noControls_cons]
  exact ⟨hopening, hitems, hclose, by decide⟩

mutual

/-- **There is no control character in a value.** -/
theorem noControls_write : ∀ v : Json, NoControls v.write
  | null | bool true | bool false => by decide
  | number m e => noControls_append.mpr ⟨noControls_writeInt m, noControls_writeExponent e⟩
  | string s => noControls_encode s.toList
  | array vs => noControls_bracket (by decide) (by decide) (noControls_writeAll vs)
  | object ms => noControls_bracket (by decide) (by decide) (noControls_writeMembers ms)

theorem noControls_writeAll : ∀ vs : List Json, ∀ w ∈ writeAll vs, NoControls w
  | [] => fun _ hw => absurd hw List.not_mem_nil
  | v :: vs => List.forall_mem_cons.mpr ⟨noControls_write v, noControls_writeAll vs⟩

theorem noControls_writeMembers :
    ∀ ms : List (String × Json), ∀ w ∈ writeMembers ms, NoControls w
  | [] => fun _ hw => absurd hw List.not_mem_nil
  | (key, v) :: ms => List.forall_mem_cons.mpr
      ⟨noControls_append.mpr ⟨noControls_encode key.toList,
        noControls_cons.mpr ⟨by decide, noControls_write v⟩⟩, noControls_writeMembers ms⟩

end

end Json

end BindCheck
