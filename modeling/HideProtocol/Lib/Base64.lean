import HideProtocol.Lib.Text

/-!
# Base64

The standard alphabet with padding. Decoding is strict: full groups of four, padding only at
the end and only where it is needed, and no bits left over in the last symbol.
-/

namespace HideProtocol.Lib.Base64

def pad : Char := '='

/-- The symbol of a six-bit value: `A` to `Z`, `a` to `z`, the digits, `+` and `/`. -/
def symbol (n : ℕ) : Char :=
  if n < 26 then Char.ofNat (n + 65)
  else if n < 52 then Char.ofNat (n + 71)
  else if n < 62 then Char.ofNat (n - 4)
  else if n = 62 then '+'
  else '/'

/-- The six-bit value of a symbol. -/
def value (c : Char) : Option ℕ :=
  if 65 ≤ c.toNat ∧ c.toNat ≤ 90 then some (c.toNat - 65)
  else if 97 ≤ c.toNat ∧ c.toNat ≤ 122 then some (c.toNat - 71)
  else if 48 ≤ c.toNat ∧ c.toNat ≤ 57 then some (c.toNat + 4)
  else if c = '+' then some 62
  else if c = '/' then some 63
  else none

def encode : Bytes → Text
  | [] => []
  | [a] =>
    let n := a.toNat
    [symbol (n / 4), symbol (n % 4 * 16), pad, pad]
  | [a, b] =>
    let n := a.toNat * 256 + b.toNat
    [symbol (n / 1024), symbol (n / 16 % 64), symbol (n % 16 * 4), pad]
  | a :: b :: c :: rest =>
    let n := a.toNat * 65536 + b.toNat * 256 + c.toNat
    symbol (n / 262144) :: symbol (n / 4096 % 64) :: symbol (n / 64 % 64) :: symbol (n % 64) ::
      encode rest

/-- The encoding without its padding. -/
def encodeNoPad (bytes : Bytes) : Text := (encode bytes).filter (· ≠ pad)

/-- A last group with two padding characters. -/
def decodeOne (w x : Char) : Option Bytes := do
  let w ← value w
  let x ← value x
  let n := w * 64 + x
  if n % 16 = 0 then some [UInt8.ofNat (n / 16)] else none

/-- A last group with one padding character. -/
def decodeTwo (w x y : Char) : Option Bytes := do
  let w ← value w
  let x ← value x
  let y ← value y
  let n := w * 4096 + x * 64 + y
  if n % 4 = 0 then some [UInt8.ofNat (n / 1024), UInt8.ofNat (n / 4)] else none

/-- A group without padding. -/
def decodeThree (w x y z : Char) : Option Bytes := do
  let w ← value w
  let x ← value x
  let y ← value y
  let z ← value z
  let n := w * 262144 + x * 4096 + y * 64 + z
  some [UInt8.ofNat (n / 65536), UInt8.ofNat (n / 256), UInt8.ofNat n]

def decode : Text → Option Bytes
  | [] => some []
  | w :: x :: y :: z :: rest =>
    if rest = [] ∧ z = pad then
      if y = pad then decodeOne w x else decodeTwo w x y
    else do
      let group ← decodeThree w x y z
      let rest ← decode rest
      some (group ++ rest)
  | _ => none

/-! ## The alphabet -/

/-- What is computed of the sixty-four symbols, in one go. -/
theorem symbol_facts : ∀ n < 64, value (symbol n) = some n ∧ symbol n ≠ pad ∧ symbol n ≠ '-' ∧
    0x21 ≤ (symbol n).toNat ∧ (symbol n).toNat ≤ 0x7e := by
  decide +kernel

theorem value_symbol : ∀ n < 64, value (symbol n) = some n := fun n hn => (symbol_facts n hn).1

theorem symbol_ne_pad : ∀ n < 64, symbol n ≠ pad := fun n hn => (symbol_facts n hn).2.1

/-- Every character written is printable ASCII and not a space. -/
def Printable (c : Char) : Prop := 0x21 ≤ c.toNat ∧ c.toNat ≤ 0x7e

theorem printable_symbol : ∀ n < 64, Printable (symbol n) :=
  fun n hn => (symbol_facts n hn).2.2.2

theorem printable_pad : Printable pad := by
  unfold Printable
  decide

/-- What holds of every symbol and of the padding holds of every character written. -/
theorem forall_encode {p : Char → Prop} (hsymbol : ∀ n < 64, p (symbol n)) (hpad : p pad)
    (bytes : Bytes) : ∀ c ∈ encode bytes, p c := by
  fun_induction encode bytes with
  | case1 => simp
  | case2 a n =>
    have := a.toNat_lt
    have hlt : n < 256 := this
    simp only [List.forall_mem_cons, List.not_mem_nil, false_implies, implies_true, and_true]
    exact ⟨hsymbol _ (by omega), hsymbol _ (by omega), hpad, hpad⟩
  | case3 a b n =>
    have ha := a.toNat_lt
    have hb := b.toNat_lt
    have hlt : n < 65536 := by omega
    simp only [List.forall_mem_cons, List.not_mem_nil, false_implies, implies_true, and_true]
    exact ⟨hsymbol _ (by omega), hsymbol _ (by omega), hsymbol _ (by omega), hpad⟩
  | case4 a b c rest n ih =>
    have ha := a.toNat_lt
    have hb := b.toNat_lt
    have hc := c.toNat_lt
    have hlt : n < 16777216 := by omega
    simp only [List.forall_mem_cons]
    exact ⟨hsymbol _ (by omega), hsymbol _ (by omega), hsymbol _ (by omega), hsymbol _ (by omega),
      ih⟩

theorem printable_encode (bytes : Bytes) : ∀ c ∈ encode bytes, Printable c :=
  forall_encode printable_symbol printable_pad bytes

theorem symbol_ne_hyphen : ∀ n < 64, symbol n ≠ '-' := fun n hn => (symbol_facts n hn).2.2.1

/-- The hyphen is not in the alphabet. -/
theorem hyphen_not_mem_encode (bytes : Bytes) : '-' ∉ encode bytes := by
  intro hmem
  have hall := @forall_encode (fun c => c ≠ '-') symbol_ne_hyphen (by decide) bytes
  exact hall '-' hmem rfl

theorem length_encode (bytes : Bytes) : (encode bytes).length = (bytes.length + 2) / 3 * 4 := by
  fun_induction encode bytes with
  | case1 => rfl
  | case2 => simp
  | case3 => simp
  | case4 a b c rest n ih =>
    simp only [List.length_cons, ih]
    omega

/-! ## Round trip -/

theorem ofNat_eq {a : UInt8} {n : ℕ} (h : n % 256 = a.toNat) : UInt8.ofNat n = a := by
  apply UInt8.toNat_inj.mp
  rw [UInt8.toNat_ofNat', ← h]

theorem decode_encode (bytes : Bytes) : decode (encode bytes) = some bytes := by
  fun_induction encode bytes with
  | case1 => rfl
  | case2 a n =>
    have ha := a.toNat_lt
    have hn : n < 256 := ha
    have hone : decodeOne (symbol (n / 4)) (symbol (n % 4 * 16)) = some [a] := by
      simp only [decodeOne, value_symbol _ (show n / 4 < 64 by omega),
        value_symbol _ (show n % 4 * 16 < 64 by omega), Option.bind_eq_bind, Option.bind_some]
      rw [if_pos (by omega), ofNat_eq (a := a) (by omega)]
    simp only [decode, true_and, if_true]
    exact hone
  | case3 a b n =>
    have ha := a.toNat_lt
    have hb := b.toNat_lt
    have hn : n < 65536 := by omega
    have htwo : decodeTwo (symbol (n / 1024)) (symbol (n / 16 % 64)) (symbol (n % 16 * 4)) =
        some [a, b] := by
      simp only [decodeTwo, value_symbol _ (show n / 1024 < 64 by omega),
        value_symbol _ (show n / 16 % 64 < 64 by omega),
        value_symbol _ (show n % 16 * 4 < 64 by omega), Option.bind_eq_bind, Option.bind_some]
      rw [if_pos (by omega), ofNat_eq (a := a) (by omega), ofNat_eq (a := b) (by omega)]
    simp only [decode, true_and, if_true, if_neg (symbol_ne_pad _ (show n % 16 * 4 < 64 by omega))]
    exact htwo
  | case4 a b c rest n ih =>
    have ha := a.toNat_lt
    have hb := b.toNat_lt
    have hc := c.toNat_lt
    have hn : n < 16777216 := by omega
    have hthree : decodeThree (symbol (n / 262144)) (symbol (n / 4096 % 64))
        (symbol (n / 64 % 64)) (symbol (n % 64)) = some [a, b, c] := by
      simp only [decodeThree, value_symbol _ (show n / 262144 < 64 by omega),
        value_symbol _ (show n / 4096 % 64 < 64 by omega),
        value_symbol _ (show n / 64 % 64 < 64 by omega), value_symbol _ (show n % 64 < 64 by omega),
        Option.bind_eq_bind, Option.bind_some]
      rw [ofNat_eq (a := a) (by omega), ofNat_eq (a := b) (by omega), ofNat_eq (a := c) (by omega)]
    have hpad : ¬(encode rest = [] ∧ symbol (n % 64) = pad) := by
      intro h
      exact symbol_ne_pad _ (show n % 64 < 64 by omega) h.2
    simp only [decode, if_neg hpad, hthree, ih, Option.bind_eq_bind, Option.bind_some]
    rfl

end HideProtocol.Lib.Base64
