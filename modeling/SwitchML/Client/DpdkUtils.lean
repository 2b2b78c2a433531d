/-
`dpdk_utils.cc`: MAC addresses and their text.

The loop of `Mac2Str` for an integer counts its index up from 4 where it should
count down, so it has no end: whatever the address, the fifth turn shifts by as
many bits as the type has. `Mac2Str` for the six bytes of an address does end,
and `Str2Mac` reads its text back.

A text is a list of characters. What C++ leaves undefined is an error.
-/
import Mathlib.Data.BitVec

namespace SwitchML.Client

inductive Undefined
  /-- A shift that is not within the width of the type. -/
  | shift (bits : ℤ)
  /-- An `int` beyond its greatest value. -/
  | overflow
  /-- `sscanf` has read a number that the object cannot hold. -/
  | conversion
deriving DecidableEq

/-! ## Integers to text -/

/-- `ToHex` for a type of `size` bytes: the value is printed as an `int`. -/
def toHex (size : ℕ) (i : BitVec (8 * size)) : List Char :=
  List.leftpad (2 * size) '0' (Nat.toDigits 16 (i.setWidth 32).toNat)

def shiftLeft (x : BitVec 64) (bits : ℤ) : Except Undefined (BitVec 64) :=
  if 0 ≤ bits ∧ bits < 64 then .ok (x <<< bits.toNat) else .error (.shift bits)

def shiftRight (x : BitVec 64) (bits : ℤ) : Except Undefined (BitVec 64) :=
  if 0 ≤ bits ∧ bits < 64 then .ok (x >>> bits.toNat) else .error (.shift bits)

/-- The last two digits of the byte of an address that starts at a bit. -/
def macGroup (addr : BitVec 64) (bits : ℤ) : Except Undefined (List Char) := do
  let mask ← shiftLeft 0xFF bits
  let byte ← shiftRight (addr &&& mask) bits
  let hex := toHex 8 byte
  .ok ((hex.drop (8 * 2 - 2)).take 2)

/-- The loop of `Mac2Str`; `none` where it has not ended after as many turns. -/
def mac2StrLoop (addr : BitVec 64) : ℕ → ℤ → List Char → Except Undefined (Option (List Char))
  | 0, _, _ => .ok none
  | turns + 1, i, macStr =>
    if 0 ≤ i then do
      let hex ← macGroup addr (8 * i)
      if i + 1 < 2 ^ 31 then mac2StrLoop addr turns (i + 1) (macStr ++ ':' :: hex) else .error .overflow
    else .ok (some macStr)

/-- `Mac2Str` for a `uint64_t`, up to a number of turns of its loop. -/
def mac2Str (addr : BitVec 64) (turns : ℕ) : Except Undefined (Option (List Char)) := do
  let hex ← macGroup addr 40
  mac2StrLoop addr turns 4 hex

/-- `Mac2Str` for an `rte_ether_addr`. -/
def etherMac2Str (addrBytes : Fin 6 → BitVec 8) : List Char :=
  (List.finRange 5).foldl (fun mac i => mac ++ toHex 1 (addrBytes i.castSucc) ++ [':']) [] ++
    toHex 1 (addrBytes 5)

/-! ## Text to integers -/

def isSpace (c : Char) : Bool := c = ' ' || 9 ≤ c.toNat && c.toNat ≤ 13

def hexValue (c : Char) : Option ℕ :=
  if '0' ≤ c ∧ c ≤ '9' then some (c.toNat - '0'.toNat)
  else if 'a' ≤ c ∧ c ≤ 'f' then some (c.toNat - 'a'.toNat + 10)
  else if 'A' ≤ c ∧ c ≤ 'F' then some (c.toNat - 'A'.toNat + 10)
  else none

def isHexDigit (c : Char) : Bool := (hexValue c).isSome

/-- A sign, if there is one. -/
def scanSign : List Char → ℤ × List Char
  | '-' :: text => (-1, text)
  | '+' :: text => (1, text)
  | text => (1, text)

def skipPrefix : List Char → List Char
  | '0' :: 'x' :: text => text
  | '0' :: 'X' :: text => text
  | text => text

/-- `%x`: the number at the start of the text, and what follows it. -/
def scanHex (text : List Char) : Option (ℤ × List Char) :=
  let signed := scanSign (text.dropWhile isSpace)
  let text := skipPrefix signed.2
  let digits := text.takeWhile isHexDigit
  if digits = [] then none
  else
    let value := digits.foldl (fun n c => 16 * n + (hexValue c).getD 0) 0
    some (signed.1 * value, text.dropWhile isHexDigit)

/-- So many `%hhx` with colons between them: the bytes that are stored, and what
follows the last one if all were. -/
def scanBytes : ℕ → List Char → Except Undefined (List (BitVec 8) × Option (List Char))
  | 0, text => .ok ([], some text)
  | n + 1, text =>
    match scanHex text with
    | none => .ok ([], none)
    | some (value, rest) =>
      if 0 ≤ value ∧ value < 256 then
        let byte := BitVec.ofInt 8 value
        match n, rest with
        | 0, rest => .ok ([byte], some rest)
        | n + 1, ':' :: rest => do
          let scanned ← scanBytes (n + 1) rest
          .ok (byte :: scanned.1, scanned.2)
        | _ + 1, _ => .ok ([byte], none)
      else .error .conversion

/-- The bytes of an address, the first one uppermost. -/
def macOfBytes (mac : Fin 6 → BitVec 8) : BitVec 64 :=
  (mac 0).setWidth 64 <<< 40 ||| (mac 1).setWidth 64 <<< 32 ||| (mac 2).setWidth 64 <<< 24 |||
    (mac 3).setWidth 64 <<< 16 ||| (mac 4).setWidth 64 <<< 8 ||| (mac 5).setWidth 64

/-- `%n` is as long as the text if nothing follows the last byte. -/
def str2Mac (s : List Char) : Except Undefined (BitVec 64) := do
  let scanned ← scanBytes 6 s
  if scanned.2 = some [] then .ok (macOfBytes fun i => scanned.1.getD i 0) else .ok (-1)

/-! ## The text of six bytes -/

theorem toHex_byte : ∀ b : BitVec 8, toHex 1 b = [Nat.digitChar (b.toNat / 16), Nat.digitChar (b.toNat % 16)] := by
  decide +kernel

/-- What the reader makes of a digit. -/
theorem digitChar_scan : ∀ d : Fin 16, hexValue (Nat.digitChar d) = some d.val ∧ isSpace (Nat.digitChar d) = false ∧
    Nat.digitChar d ≠ '-' ∧ Nat.digitChar d ≠ '+' ∧ Nat.digitChar d ≠ 'x' ∧ Nat.digitChar d ≠ 'X' := by
  decide

/-- The text of a byte is read back, if no digit follows it. -/
theorem scanHex_toHex (b : BitVec 8) (rest : List Char) (hrest : ∀ c ∈ rest.head?, isHexDigit c = false) :
    scanHex (toHex 1 b ++ rest) = some ((b.toNat : ℤ), rest) := by
  have hb := b.isLt
  obtain ⟨h1, hspace, hminus, hplus, -, -⟩ := digitChar_scan ⟨b.toNat / 16, by omega⟩
  obtain ⟨h2, -, -, -, hx, hX⟩ := digitChar_scan ⟨b.toNat % 16, by omega⟩
  simp only at h1 hspace hminus hplus h2 hx hX
  have htake : rest.takeWhile isHexDigit = [] ∧ rest.dropWhile isHexDigit = rest := by
    cases rest with
    | nil => exact ⟨rfl, rfl⟩
    | cons c rest =>
      have hc := hrest c rfl
      simp [hc]
  rw [toHex_byte, List.cons_append, List.cons_append, List.nil_append]
  generalize Nat.digitChar (b.toNat / 16) = c at h1 hspace hminus hplus ⊢
  generalize Nat.digitChar (b.toNat % 16) = d at h2 hx hX ⊢
  have hc : isHexDigit c = true := by rw [isHexDigit, h1]; rfl
  have hd : isHexDigit d = true := by rw [isHexDigit, h2]; rfl
  have hsign : scanSign (c :: d :: rest) = (1, c :: d :: rest) := by
    unfold scanSign
    split <;> simp_all
  have hskip : skipPrefix (c :: d :: rest) = c :: d :: rest := by
    unfold skipPrefix
    split <;> simp_all
  have hdigits : (c :: d :: rest).takeWhile isHexDigit = [c, d] := by
    rw [List.takeWhile_cons_of_pos hc, List.takeWhile_cons_of_pos hd, htake.1]
  have hafter : (c :: d :: rest).dropWhile isHexDigit = rest := by
    rw [List.dropWhile_cons_of_pos hc, List.dropWhile_cons_of_pos hd, htake.2]
  rw [scanHex, List.dropWhile_cons_of_neg (by rw [hspace]; decide), hsign]
  simp only [hskip, hdigits, hafter, List.foldl_cons, List.foldl_nil, h1, h2, Option.getD_some, reduceCtorEq, if_false,
    Option.some.injEq, Prod.mk.injEq, and_true]
  omega

/-- The groups of a text, with colons between them. -/
def groupsText (mac : List (BitVec 8)) : List Char := [':'].intercalate (mac.map (toHex 1))

theorem groupsText_cons (b b' : BitVec 8) (mac : List (BitVec 8)) :
    groupsText (b :: b' :: mac) = toHex 1 b ++ ':' :: groupsText (b' :: mac) := by
  simp [groupsText, List.intercalate]

/-- Bytes are read back from their text. -/
theorem scanBytes_groupsText (mac : List (BitVec 8)) (hmac : mac ≠ []) :
    scanBytes mac.length (groupsText mac) = .ok (mac, some []) := by
  have hbyte (b : BitVec 8) : 0 ≤ (b.toNat : ℤ) ∧ (b.toNat : ℤ) < 256 ∧ BitVec.ofInt 8 b.toNat = b := by
    have hb := b.isLt
    exact ⟨by omega, by omega, by simp⟩
  induction mac with
  | nil => exact absurd rfl hmac
  | cons b mac ih =>
    obtain ⟨h0, h1, h2⟩ := hbyte b
    cases mac with
    | nil =>
      have hscan := scanHex_toHex b [] (by simp)
      rw [List.append_nil] at hscan
      have htext : groupsText [b] = toHex 1 b := by simp [groupsText, List.intercalate]
      rw [htext, List.length_singleton, scanBytes, hscan]
      simp only [h0, h1, h2, and_self, if_true]
    | cons b' mac =>
      have hscan := scanHex_toHex b (':' :: groupsText (b' :: mac)) (by simp; decide)
      rw [groupsText_cons, List.length_cons, scanBytes, hscan]
      simp only [h0, h1, h2, and_self, if_true]
      show (scanBytes (b' :: mac).length (groupsText (b' :: mac))).bind _ = _
      rw [ih (List.cons_ne_nil b' mac)]
      rfl

theorem etherMac2Str_eq (addrBytes : Fin 6 → BitVec 8) :
    etherMac2Str addrBytes = groupsText (List.ofFn addrBytes) := by
  simp [etherMac2Str, groupsText, List.intercalate, List.ofFn_succ, List.finRange_succ]

/-- Six two-digit hexadecimal groups, separated by colons. -/
def SixGroups (text : List Char) : Prop :=
  ∃ groups : List (List Char), groups.length = 6 ∧ (∀ group ∈ groups, group.length = 2 ∧ ∀ c ∈ group, isHexDigit c = true) ∧
    text = [':'].intercalate groups

/-- The other overload ends for every address, and is undone by `Str2Mac`. -/
theorem etherMac2Str_roundTrip (addrBytes : Fin 6 → BitVec 8) :
    SixGroups (etherMac2Str addrBytes) ∧ str2Mac (etherMac2Str addrBytes) = .ok (macOfBytes addrBytes) := by
  constructor
  · refine ⟨(List.ofFn addrBytes).map (toHex 1), by simp, fun group hgroup => ?_, etherMac2Str_eq addrBytes⟩
    obtain ⟨b, -, rfl⟩ := List.mem_map.mp hgroup
    have hb := b.isLt
    have h1 := (digitChar_scan ⟨b.toNat / 16, by omega⟩).1
    have h2 := (digitChar_scan ⟨b.toNat % 16, by omega⟩).1
    simp only at h1 h2
    rw [toHex_byte]
    simp [isHexDigit, h1, h2]
  · have hscan := scanBytes_groupsText (List.ofFn addrBytes) (by simp)
    rw [List.length_ofFn] at hscan
    rw [etherMac2Str_eq, str2Mac, hscan]
    simp only [bind, Except.bind, if_true]
    congr 2
    funext i
    rw [List.getD_eq_getElem?_getD, List.getElem?_ofFn, dif_pos i.isLt]
    rfl

/-- The bytes of an address, the uppermost one first. -/
def bytesOfMac (addr : BitVec 64) (i : Fin 6) : BitVec 8 := addr.extractLsb' (8 * (5 - i.val)) 8

/-- A byte of an address, put back where it was. -/
theorem getLsbD_byte (addr : BitVec 64) (n : ℕ) {i : ℕ} (hi : i < 64) :
    ((addr.extractLsb' n 8).setWidth 64 <<< n).getLsbD i = (decide (n ≤ i ∧ i < n + 8) && addr.getLsbD i) := by
  rw [BitVec.getLsbD_shiftLeft, BitVec.getLsbD_setWidth, BitVec.getLsbD_extractLsb']
  by_cases h : n ≤ i ∧ i < n + 8
  · have hlt : i - n < 8 := by omega
    have hlt' : i - n < 64 := by omega
    simp [h, hi, hlt, hlt']
  · by_cases hn : i < n
    · simp [h, hn]
    · have hlt : ¬i - n < 8 := by omega
      simp [h, hlt]

theorem macOfBytes_bytesOfMac {addr : BitVec 64} (h : addr.toNat < 2 ^ 48) : macOfBytes (bytesOfMac addr) = addr := by
  have hhigh (i : ℕ) (hi : 48 ≤ i) : addr.getLsbD i = false := by
    rw [← BitVec.testBit_toNat]
    exact Nat.testBit_lt_two_pow (h.trans_le (Nat.pow_le_pow_right (by decide) hi))
  apply BitVec.eq_of_getLsbD_eq
  intro i hi
  have hlast := getLsbD_byte addr 0 hi
  rw [BitVec.shiftLeft_zero] at hlast
  have hbits : (macOfBytes (bytesOfMac addr)).getLsbD i = (decide (i < 48) && addr.getLsbD i) := by
    rw [macOfBytes]
    simp only [BitVec.getLsbD_or]
    change (((addr.extractLsb' 40 8).setWidth 64 <<< 40).getLsbD i ||
      ((addr.extractLsb' 32 8).setWidth 64 <<< 32).getLsbD i || ((addr.extractLsb' 24 8).setWidth 64 <<< 24).getLsbD i ||
      ((addr.extractLsb' 16 8).setWidth 64 <<< 16).getLsbD i || ((addr.extractLsb' 8 8).setWidth 64 <<< 8).getLsbD i ||
      ((addr.extractLsb' 0 8).setWidth 64).getLsbD i) = _
    rw [getLsbD_byte addr 40 hi, getLsbD_byte addr 32 hi, getLsbD_byte addr 24 hi, getLsbD_byte addr 16 hi,
      getLsbD_byte addr 8 hi, hlast]
    cases addr.getLsbD i
    · simp
    · rw [Bool.eq_iff_iff]
      simp only [Bool.and_true, Bool.or_eq_true, decide_eq_true_eq]
      omega
  rw [hbits]
  by_cases h48 : i < 48
  · rw [decide_eq_true h48, Bool.true_and]
  · rw [hhigh i (by omega), Bool.and_false]

/-- So it converts every address of 48 bits. -/
theorem etherMac2Str_converts {addr : BitVec 64} (h : addr.toNat < 2 ^ 48) :
    SixGroups (etherMac2Str (bytesOfMac addr)) ∧ str2Mac (etherMac2Str (bytesOfMac addr)) = .ok addr := by
  have hround := etherMac2Str_roundTrip (bytesOfMac addr)
  rw [macOfBytes_bytesOfMac h] at hround
  exact hround

/-! ## The text of an integer -/

/-- What `Mac2Str` is for, at one address: it ends without an undefined operation,
and `Str2Mac` undoes it. -/
def Converts (addr : BitVec 64) : Prop :=
  ∃ turns text, mac2Str addr turns = .ok (some text) ∧ SixGroups text ∧ str2Mac text = .ok addr

variable {addr : BitVec 64}

theorem macGroup_ok (addr : BitVec 64) {bits : ℤ} (h0 : 0 ≤ bits) (h64 : bits < 64) : ∃ hex, macGroup addr bits = .ok hex := by
  simp [macGroup, shiftLeft, shiftRight, h0, h64, bind, Except.bind]

theorem macGroup_error {bits : ℤ} (h : ¬(0 ≤ bits ∧ bits < 64)) : macGroup addr bits = .error (.shift bits) := by
  rw [macGroup, shiftLeft, if_neg h]
  rfl

/-- An index that is not negative stays so, and the loop goes on. -/
theorem mac2StrLoop_runs {turns : ℕ} {i : ℤ} (hi : 0 ≤ i) (macStr text : List Char) :
    mac2StrLoop addr turns i macStr ≠ .ok (some text) := by
  induction turns generalizing i macStr with
  | zero => simp [mac2StrLoop]
  | succ turns ih =>
    rw [mac2StrLoop, if_pos hi]
    cases hgroup : macGroup addr (8 * i) with
    | error u => simp [bind, Except.bind]
    | ok hex =>
      simp only [bind, Except.bind]
      split
      · exact ih (by omega) _
      · simp

/-- The index has come to 8 in the fifth turn. -/
theorem mac2StrLoop_shift {turns : ℕ} {i : ℤ} (h4 : 4 ≤ i) (h8 : i ≤ 8) (hturns : 9 - i ≤ turns) (macStr : List Char) :
    mac2StrLoop addr turns i macStr = .error (.shift 64) := by
  induction turns generalizing i macStr with
  | zero => omega
  | succ turns ih =>
    rw [mac2StrLoop, if_pos (by omega)]
    by_cases hi : i = 8
    · rw [hi, macGroup_error (by decide)]
      rfl
    · obtain ⟨hex, hgroup⟩ := macGroup_ok addr (by omega : 0 ≤ 8 * i) (by omega)
      rw [hgroup]
      simp only [bind, Except.bind]
      rw [if_pos (by omega)]
      exact ih (by omega) (by omega) (by omega) _

theorem mac2Str_runs (turns : ℕ) (text : List Char) : mac2Str addr turns ≠ .ok (some text) := by
  obtain ⟨hex, hgroup⟩ := macGroup_ok addr (by decide : (0 : ℤ) ≤ 40) (by decide)
  rw [mac2Str, hgroup]
  exact mac2StrLoop_runs (by decide) hex text

theorem mac2Str_shift {turns : ℕ} (hturns : 5 ≤ turns) : mac2Str addr turns = .error (.shift 64) := by
  obtain ⟨hex, hgroup⟩ := macGroup_ok addr (by decide : (0 : ℤ) ≤ 40) (by decide)
  rw [mac2Str, hgroup]
  exact mac2StrLoop_shift (by decide) (by decide) (by omega) hex

/-- No address is converted: the loop does not end, and its fifth turn shifts by
64 bits. -/
theorem never_converts (addr : BitVec 64) :
    ¬Converts addr ∧ (∀ turns text, mac2Str addr turns ≠ .ok (some text)) ∧
      ∀ turns, 5 ≤ turns → mac2Str addr turns = .error (.shift 64) := by
  refine ⟨?_, mac2Str_runs, fun turns => mac2Str_shift⟩
  rintro ⟨turns, text, hrun, -⟩
  exact mac2Str_runs turns text hrun

/-- The address 0a:0b:0c:0d:0e:0f. -/
theorem not_converts : ¬∀ addr : BitVec 64, addr.toNat < 2 ^ 48 → Converts addr := by
  intro h
  obtain ⟨turns, text, hrun, -⟩ := h 0x0a0b0c0d0e0f (by decide)
  exact mac2Str_runs turns text hrun

end SwitchML.Client
