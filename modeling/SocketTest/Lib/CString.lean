import Mathlib.Data.List.GetD
import Mathlib.Data.List.TakeWhile
import Mathlib.Tactic
import SocketTest.Lib.CInt

/-!
# C strings in a byte buffer

A buffer is a function from positions to bytes, a pointer into it a position; a string ends before
the first NUL. The functions follow the C library's in the C locale. Each takes a bound on the bytes
it looks at, the size of the buffer.
-/

namespace SocketTest.Lib

abbrev Buf := ℕ → UInt8

/-- The bytes of a literal. -/
def bytes (s : String) : List UInt8 := s.toList.map fun ch => UInt8.ofNat ch.toNat

def NUL : UInt8 := 0
def TAB : UInt8 := 9
def LF : UInt8 := 10
def CR : UInt8 := 13
def SP : UInt8 := 32
def CRLF : List UInt8 := [CR, LF]

def toLower (b : UInt8) : UInt8 := if 65 ≤ b ∧ b ≤ 90 then b + 32 else b

def isDigit (b : UInt8) : Bool := 48 ≤ b ∧ b ≤ 57

def isSpace (b : UInt8) : Bool := b = SP ∨ 9 ≤ b ∧ b ≤ 13

/-- The first of the `n` positions from `p` on whose byte fails `P`, or the position behind them. -/
def span (P : UInt8 → Bool) (buf : Buf) : ℕ → ℕ → ℕ
  | 0, p => p
  | n + 1, p => if P (buf p) then span P buf n (p + 1) else p

/-- `strpbrk`. -/
def strpbrk (n : ℕ) (buf : Buf) (p : ℕ) (accept : List UInt8) : Option ℕ :=
  let q := span (fun b => b ≠ NUL ∧ b ∉ accept) buf n p
  if buf q ∈ accept then some q else none

theorem strpbrk_mem {n : ℕ} {buf : Buf} {p q : ℕ} {accept : List UInt8}
    (h : strpbrk n buf p accept = some q) : buf q ∈ accept := by
  rw [strpbrk] at h
  split_ifs at h with hq
  cases h
  exact hq

/-- `p += strspn(p, accept)`. -/
def strspn (n : ℕ) (buf : Buf) (p : ℕ) (accept : List UInt8) : ℕ :=
  span (fun b => b ∈ accept) buf n p

/-- `strchr` for a byte that is not NUL. -/
def strchr (n : ℕ) (buf : Buf) (p : ℕ) (c : UInt8) : Option ℕ :=
  let q := span (fun b => b ≠ NUL ∧ b ≠ c) buf n p
  if buf q = c then some q else none

/-- `strcasecmp(p, s) == 0`. -/
def strcaseeq (buf : Buf) (p : ℕ) : List UInt8 → Bool
  | [] => buf p = NUL
  | c :: s => toLower (buf p) = toLower c ∧ strcaseeq buf (p + 1) s

/-- `strncasecmp(p, s, strlen(s)) == 0`. -/
def strncaseeq (buf : Buf) (p : ℕ) : List UInt8 → Bool
  | [] => true
  | c :: s => toLower (buf p) = toLower c ∧ strncaseeq buf (p + 1) s

/-- The number whose digits start at `p`, after those read so far. -/
def digits (buf : Buf) : ℕ → ℕ → ℕ → ℕ
  | 0, _, acc => acc
  | n + 1, p, acc =>
    if isDigit (buf p) then digits buf n (p + 1) (acc * 10 + ((buf p).toNat - 48)) else acc

/-- `atol`, with the bounds of a 64-bit `long`. -/
def atol (n : ℕ) (buf : Buf) (p : ℕ) : ℤ :=
  let q := span isSpace buf n p
  if buf q = 45 then max (-2 ^ 63) (-(digits buf n (q + 1) 0 : ℤ))
  else if buf q = 43 then min (2 ^ 63 - 1) (digits buf n (q + 1) 0 : ℤ)
  else min (2 ^ 63 - 1) (digits buf n q 0 : ℤ)

/-! ## Text in a buffer -/

/-- The `n` bytes from `p` on. -/
def contents (buf : Buf) (p n : ℕ) : List UInt8 := (List.range n).map fun i => buf (p + i)

/-- The C string at `p`, in a buffer that has `n` bytes there. -/
def cstring (n : ℕ) (buf : Buf) (p : ℕ) : List UInt8 := (contents buf p n).takeWhile fun b => b ≠ NUL

/-- `strncpy(dst + p, s, n)`: what is left of the `n` bytes behind the string is filled with NUL. -/
def strncpy (dst : Buf) (p n : ℕ) (s : List UInt8) : Buf := fun i =>
  if p ≤ i ∧ i < p + n then s.getD (i - p) NUL else dst i

/-- `vsnprintf(dst + p, size, ...)`, the formatted text being `s`: it is cut to leave room for a
NUL. -/
def vsnprintf (dst : Buf) (p size : ℕ) (s : List UInt8) : Buf := fun i =>
  if p ≤ i ∧ i < p + size ∧ i ≤ p + s.length then
    if i + 1 = p + size then NUL else s.getD (i - p) NUL
  else dst i

/-- The digits of a number. -/
def decimalDigits (n : ℕ) : List UInt8 :=
  if n = 0 then [48] else (Nat.digits 10 n).reverse.map fun d => UInt8.ofNat (48 + d)

/-- `%d`. -/
def decimal (z : ℤ) : List UInt8 :=
  if z < 0 then 45 :: decimalDigits z.natAbs else decimalDigits z.natAbs

/-- The value of a decimal number without a sign. -/
def readDecimal (s : List UInt8) : Option ℕ :=
  if s ≠ [] ∧ s.all isDigit then
    some (s.foldl (fun n b => n * 10 + (b.toNat - 48)) 0)
  else none

@[simp] theorem contents_length (buf : Buf) (p n : ℕ) : (contents buf p n).length = n := by
  simp [contents]

theorem contents_add (buf : Buf) (p m n : ℕ) :
    contents buf p (m + n) = contents buf p m ++ contents buf (p + m) n := by
  simp [contents, List.range_add, Nat.add_assoc, Function.comp_def]

theorem cstring_nil {n p : ℕ} {buf : Buf} (h : buf p = NUL) : cstring n buf p = [] := by
  cases n with
  | zero => rfl
  | succ n =>
    rw [cstring, Nat.add_comm, contents_add]
    exact List.takeWhile_cons_of_neg (by simpa using h)

theorem cstring_head {n p : ℕ} {buf : Buf} (hn : 0 < n) (h : buf p ≠ NUL) :
    (cstring n buf p).head? = some (buf p) := by
  obtain ⟨n, rfl⟩ := Nat.exists_eq_succ_of_ne_zero hn.ne'
  have hcons : contents buf p (n + 1) = buf p :: contents buf (p + 1) n := by
    rw [Nat.add_comm, contents_add]
    rfl
  rw [cstring, hcons, List.takeWhile_cons_of_pos (by simpa using h)]
  rfl

theorem contents_congr {buf buf' : Buf} {p n : ℕ} (h : ∀ i, p ≤ i → i < p + n → buf i = buf' i) :
    contents buf p n = contents buf' p n := by
  apply List.map_congr_left
  intro i hi
  have := List.mem_range.1 hi
  exact h (p + i) (by omega) (by omega)

/-- Text that fits is written as it is. -/
theorem contents_vsnprintf {dst : Buf} {p size : ℕ} {s : List UInt8} (h : s.length < size) :
    contents (vsnprintf dst p size s) p s.length = s := by
  apply List.ext_getElem (contents_length _ _ _)
  intro i h1 h2
  simp only [contents, List.getElem_map, List.getElem_range]
  rw [vsnprintf, if_pos (by omega), if_neg (by omega), Nat.add_sub_cancel_left,
    List.getD_eq_getElem _ _ h2]

theorem contents_vsnprintf_below {dst : Buf} {p size q n : ℕ} {s : List UInt8} (h : q + n ≤ p) :
    contents (vsnprintf dst p size s) q n = contents dst q n := by
  apply contents_congr
  intro i _ hi
  rw [vsnprintf, if_neg (by omega)]

theorem contents_strncpy (dst : Buf) (p n : ℕ) (s : List UInt8) :
    contents (strncpy dst p n s) p n = s.take n ++ List.replicate (n - s.length) NUL := by
  apply List.ext_getElem
  · rw [contents_length, List.length_append, List.length_take, List.length_replicate]
    omega
  intro i h1 h2
  rw [contents_length] at h1
  simp only [contents, List.getElem_map, List.getElem_range]
  rw [strncpy, if_pos (by omega), Nat.add_sub_cancel_left]
  by_cases hi : i < s.length
  · rw [List.getElem_append_left (by rw [List.length_take]; omega), List.getElem_take,
      List.getD_eq_getElem _ _ hi]
  · rw [List.getElem_append_right (by rw [List.length_take]; omega), List.getElem_replicate,
      List.getD_eq_default _ _ (by omega)]

theorem contents_strncpy_below {dst : Buf} {p n q m : ℕ} {s : List UInt8} (h : q + m ≤ p) :
    contents (strncpy dst p n s) q m = contents dst q m := by
  apply contents_congr
  intro i _ hi
  rw [strncpy, if_neg (by omega)]

/-- A text without NUL in front of a NUL is the C string. -/
theorem cstring_eq {n : ℕ} {buf : Buf} {p : ℕ} {s t : List UInt8} (hs : ∀ b ∈ s, b ≠ NUL)
    (ht : t.head? = some NUL) (h : contents buf p n = s ++ t) : cstring n buf p = s := by
  cases t with
  | nil => cases ht
  | cons b t =>
    have hb : b = NUL := Option.some.inj ht
    rw [cstring, h, List.takeWhile_append_of_pos (by simpa using hs), hb,
      List.takeWhile_cons_of_neg (by simp), List.append_nil]

theorem cstring_ne_nul {n : ℕ} {buf : Buf} {p : ℕ} {b : UInt8} (h : b ∈ cstring n buf p) :
    b ≠ NUL := by
  simpa using List.mem_takeWhile_imp h

theorem decimalDigits_bytes {n : ℕ} {b : UInt8} (h : b ∈ decimalDigits n) : 48 ≤ b ∧ b ≤ 57 := by
  unfold decimalDigits at h
  split_ifs at h
  · rw [List.mem_singleton.1 h]
    decide
  · obtain ⟨d, hd, rfl⟩ := List.mem_map.1 h
    have hlt : d < 10 := Nat.digits_lt_base (by norm_num) (List.mem_reverse.1 hd)
    interval_cases d <;> decide

theorem decimalDigits_length {n k : ℕ} (h : n < 10 ^ (k + 1)) :
    (decimalDigits n).length ≤ k + 1 := by
  unfold decimalDigits
  split_ifs
  · simp
  · rw [List.length_map, List.length_reverse]
    exact (Nat.digits_length_le_iff (by norm_num) _).2 h

theorem decimalDigits_ne_nil (n : ℕ) : decimalDigits n ≠ [] := by
  unfold decimalDigits
  split_ifs with h
  · simp
  · simpa using Nat.digits_ne_nil_iff_ne_zero.2 h

theorem digit_toNat {d : ℕ} (h : d < 10) : (UInt8.ofNat (48 + d)).toNat - 48 = d := by
  interval_cases d <;> rfl

/-- A number written is read back. -/
theorem readDecimal_decimalDigits (n : ℕ) : readDecimal (decimalDigits n) = some n := by
  have hdigits : (decimalDigits n).all isDigit :=
    List.all_eq_true.2 fun b hb => decide_eq_true (decimalDigits_bytes hb)
  rw [readDecimal, if_pos ⟨decimalDigits_ne_nil n, hdigits⟩]
  congr 1
  unfold decimalDigits
  split_ifs with h
  · rw [h]
    rfl
  · have hfold : ∀ l : List ℕ, (∀ d ∈ l, d < 10) → (l.map fun d => UInt8.ofNat (48 + d)).foldr
        (fun b n => n * 10 + (b.toNat - 48)) 0 = Nat.ofDigits 10 l := by
      intro l hl
      induction l with
      | nil => rfl
      | cons d l ih =>
        rw [List.map_cons, List.foldr_cons, ih fun d hd => hl d (List.mem_cons_of_mem _ hd),
          digit_toNat (hl d List.mem_cons_self), Nat.ofDigits_cons]
        ring
    rw [List.map_reverse, List.foldl_reverse,
      hfold _ fun d hd => Nat.digits_lt_base (by norm_num) hd, Nat.ofDigits_digits]

theorem readDecimal_ne_none {s : List UInt8} {n : ℕ} (h : readDecimal s = some n) :
    s ≠ [] ∧ ∀ b ∈ s, 48 ≤ b ∧ b ≤ 57 := by
  unfold readDecimal at h
  split_ifs at h with hs
  exact ⟨hs.1, fun b hb => of_decide_eq_true (List.all_eq_true.1 hs.2 b hb)⟩

/-- Two texts that are equal up to a separator in neither. -/
theorem append_cons_inj {s t u v : List UInt8} {b : UInt8} (hs : b ∉ s) (ht : b ∉ t)
    (h : s ++ b :: u = t ++ b :: v) : s = t ∧ u = v := by
  induction s generalizing t with
  | nil =>
    cases t with
    | nil => exact ⟨rfl, List.tail_eq_of_cons_eq h⟩
    | cons c t => exact absurd (List.head_eq_of_cons_eq h ▸ List.mem_cons_self) ht
  | cons a s ih =>
    cases t with
    | nil => exact absurd (List.head_eq_of_cons_eq h ▸ List.mem_cons_self) hs
    | cons c t =>
      rw [List.cons_append, List.cons_append, List.cons.injEq] at h
      obtain ⟨rfl, huv⟩ := ih (fun hm => hs (List.mem_cons_of_mem _ hm))
        (fun hm => ht (List.mem_cons_of_mem _ hm)) h.2
      exact ⟨by rw [h.1], huv⟩

/-- The characters of a number are a sign and digits. -/
theorem decimal_bytes {z : ℤ} {b : UInt8} (h : b ∈ decimal z) : b = 45 ∨ 48 ≤ b ∧ b ≤ 57 := by
  unfold decimal at h
  split_ifs at h
  · rcases List.mem_cons.1 h with h | h
    · exact .inl h
    · exact .inr (decimalDigits_bytes h)
  · exact .inr (decimalDigits_bytes h)

theorem decimal_length {z : ℤ} {k : ℕ} (h : z.natAbs < 10 ^ (k + 1)) :
    (decimal z).length ≤ k + 2 := by
  have hd := decimalDigits_length h
  unfold decimal
  split_ifs
  · rw [List.length_cons]
    omega
  · omega

end SocketTest.Lib
