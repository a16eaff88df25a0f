import LearningLinux.MiniCrt.Itoa
import LearningLinux.MiniCrt.Strings

/-!
# `vfprintf`, as `printf.c` computes it

The loop is a machine with the state `translating`; a `%` enters it and the
next byte leaves it. A byte is printed by `fputc`, which takes and returns a
`char`. That type is signed, so a byte from `0x80` on comes back negative and
is taken for the `EOF` of a failed write, although it is written. `%d` goes
through `itoa` and a buffer of 16 bytes in the frame of `vfprintf`, `%s`
through `fputs`, whose answer is the length as an `int`. The sum of what was
written is an `int` too.

The system call `write` is a parameter. It takes the bytes and answers how
many of them it has written, or a negative number.
-/

namespace LearningLinux.MiniCrt

open Lib

def EOF : Int := -1

/-- A `char`, as it is promoted to `int`. -/
def charInt (c : UInt8) : Int := (c.toNat : Int).bmod (2 ^ 8)

/-- The `count` bytes from `p` on. -/
def bytesAt (m : ByteMem) (p count : Nat) : List UInt8 :=
  (List.range count).map fun i => m.byte (p + i)

/-- The loop variables of `vfprintf`, with the memory, and with what has been
written so far. -/
structure Fmt where
  mem : ByteMem
  arglist : Nat
  translating : Bool
  ret : Int
  out : List UInt8

section Model

variable (write : Int → List UInt8 → Int)

/-- The system call, with what has been written after it. -/
def sysWrite (fd : Int) (bytes out : List UInt8) : Int × List UInt8 :=
  (write fd bytes, out ++ bytes.take (write fd bytes).toNat)

def fwrite (m : ByteMem) (buffer : Nat) (size count stream : Int)
    (out : List UInt8) : Int × List UInt8 :=
  sysWrite write stream (bytesAt m buffer ((size * count) % 2 ^ 32).toNat) out

/-- `c` is a variable of `fputc`, and what it writes from. -/
def fputc (c : UInt8) (stream : Int) (out : List UInt8) : Int × List UInt8 :=
  let (n, out) := sysWrite write stream [c] out
  if n ≠ 1 then (EOF, out) else (charInt c, out)

def fputs (m : ByteMem) (str : Nat) (stream : Int) (out : List UInt8) :
    Option (Int × List UInt8) := do
  let n ← strlen m str
  let len := int32 n
  let (n, out) := fwrite write m str 1 len stream out
  some (if n ≠ len then (EOF, out) else (len, out))

/-- A byte is printed, and nothing is being translated any more: the state
that goes on, or what has been written when `EOF` is returned. -/
def printChar (stream : Int) (c : UInt8) (s : Fmt) : Except (List UInt8) Fmt :=
  let (n, out) := fputc write c stream s.out
  if n < 0 then .error out
  else .ok { s with ret := int32 (s.ret + 1), translating := false, out := out }

/-- A string is printed for an argument. -/
def printStr (stream : Int) (str : Nat) (s : Fmt) :
    Option (Except (List UInt8) Fmt) := do
  let (n, out) ← fputs write s.mem str stream s.out
  if n < 0 then some (.error out)
  else do
    let len ← strlen s.mem str
    some (.ok { s with ret := int32 (s.ret + len), translating := false,
                       out := out })

/-- One round of the loop, with the buffer of `%d` at `buf`. -/
def vfprintfChar (buf : Nat) (stream : Int) (c : UInt8) (s : Fmt) :
    Option (Except (List UInt8) Fmt) :=
  if c = 0x25 then
    if s.translating then some (printChar write stream 0x25 s)
    else some (.ok { s with translating := true })
  else if c = 0x64 then
    if s.translating then do
      let (m, _) ← itoa s.mem (int32 (s.mem.load32 s.arglist)) buf 10
      printStr write stream buf { s with mem := m, arglist := s.arglist + 4 }
    else some (printChar write stream 0x64 s)
  else if c = 0x73 then
    if s.translating then
      printStr write stream (s.mem.load32 s.arglist)
        { s with arglist := s.arglist + 4 }
    else some (printChar write stream 0x73 s)
  else some (printChar write stream c s)

/-- The loop: what `vfprintf` returns and what has been written. -/
def vfprintfLoop (buf : Nat) (stream : Int) :
    Nat → Nat → Fmt → Option (Int × List UInt8)
  | 0, _, _ => none
  | fuel + 1, p, s =>
      if s.mem.byte p = 0 then some (s.ret, s.out)
      else match vfprintfChar write buf stream (s.mem.byte p) s with
        | none => none
        | some (.error out) => some (EOF, out)
        | some (.ok s) => vfprintfLoop buf stream fuel (p + 1) s

def vfprintf (m : ByteMem) (buf : Nat) (stream : Int)
    (format arglist : Nat) : Option (Int × List UInt8) :=
  vfprintfLoop write buf stream (2 ^ 32) format
    { mem := m, arglist := arglist, translating := false, ret := 0, out := [] }

end Model

/-! ## What a format stands for -/

inductive Arg where
  | int (n : Int)
  | str (s : List UInt8)
  deriving DecidableEq, Repr

def nextInt : List Arg → Option (Int × List Arg)
  | .int n :: args => some (n, args)
  | _ => none

def nextStr : List Arg → Option (List UInt8 × List Arg)
  | .str s :: args => some (s, args)
  | _ => none

/-- The expansion of a format, for the arguments of its conversions. -/
def expand : List UInt8 → List Arg → Option (List UInt8)
  | [], [] => some []
  | [], _ :: _ => none
  | [c], [] => some (if c = 0x25 then [] else [c])
  | [_], _ :: _ => none
  | c :: d :: f, args =>
      if c = 0x25 then
        if d = 0x64 then
          (nextInt args).bind fun r => (expand f r.2).map (numeral 10 r.1 ++ ·)
        else if d = 0x73 then
          (nextStr args).bind fun r => (expand f r.2).map (r.1 ++ ·)
        else (expand f args).map (d :: ·)
      else (expand (d :: f) args).map (c :: ·)

/-- The bytes from `lo` up to `hi` are not in the buffer of `vfprintf`. -/
def Clear (buf lo hi : Nat) : Prop := hi ≤ buf ∨ buf + 16 ≤ lo

/-- The arguments lie in memory from `ap` on, in words, and their strings
where these point to; none of it in the buffer. -/
def ArgsAt (buf : Nat) (m : ByteMem) : Nat → List Arg → Prop
  | _, [] => True
  | ap, .int n :: args =>
      int32 (m.load32 ap) = n ∧ Clear buf ap (ap + 4) ∧
        ArgsAt buf m (ap + 4) args
  | ap, .str s :: args =>
      m.CStr (m.load32 ap) s ∧
        Clear buf (m.load32 ap) (m.load32 ap + s.length + 1) ∧
        Clear buf ap (ap + 4) ∧ ArgsAt buf m (ap + 4) args

/-! ## Writes that succeed -/

theorem bytesAt_eq {m : ByteMem} {p : Nat} {s : List UInt8}
    (h : m.Holds p s) : bytesAt m p s.length = s := by
  refine List.ext_getElem (by simp [bytesAt]) fun i _ hi => ?_
  simp only [bytesAt, List.getElem_map, List.getElem_range]
  exact h i hi

theorem bmod_neg_iff {n : Nat} (h : n < 256) :
    Int.bmod n (2 ^ 8) < 0 ↔ ¬ n < 128 := by
  rw [Int.bmod_def]
  split <;> omega

/-- The bytes that a signed `char` makes negative. -/
theorem charInt_neg_iff (c : UInt8) : charInt c < 0 ↔ ¬ c < 0x80 := by
  have h80 : c < 0x80 ↔ c.toNat < 128 := UInt8.lt_iff_toNat_lt
  rw [h80]
  exact bmod_neg_iff c.toNat_lt

section Writes

variable {write : Int → List UInt8 → Int} {stream : Int} {m : ByteMem}
  {p : Nat} {s out : List UInt8}

/-- Every call writes all of its bytes. -/
def WritesAll (write : Int → List UInt8 → Int) (fd : Int) : Prop :=
  ∀ bytes, bytes.length < 2 ^ 31 → write fd bytes = bytes.length

theorem WritesAll.sysWrite (h : WritesAll write stream)
    (hlen : s.length < 2 ^ 31) :
    sysWrite write stream s out = ((s.length : Int), out ++ s) := by
  rw [MiniCrt.sysWrite, h s hlen, Int.toNat_natCast, List.take_length]

theorem WritesAll.fputc (h : WritesAll write stream) (c : UInt8) :
    fputc write c stream out = (charInt c, out ++ [c]) := by
  have hone : [c].length < 2 ^ 31 := by
    rw [List.length_singleton]
    decide
  rw [MiniCrt.fputc, h.sysWrite hone]
  rfl

theorem int32_of_lt {n : Nat} (h : n < 2 ^ 31) : int32 n = n := by
  rw [int32, Int.bmod_eq_of_le (by omega) (by omega)]

/-- A length from `2 ^ 31` on is negative as an `int`. -/
theorem int32_neg_of_le {n : Nat} (h : 2 ^ 31 ≤ n) (h' : n < 2 ^ 32) :
    int32 n < 0 := by
  rw [int32, Int.bmod_def]
  split <;> omega

theorem WritesAll.fputs (h : WritesAll write stream) (hs : m.CStr p s)
    (hlen : s.length < 2 ^ 31) :
    fputs write m p stream out = some ((s.length : Int), out ++ s) := by
  have hcount : ((1 * (s.length : Int)) % 2 ^ 32).toNat = s.length := by omega
  have hbytes := bytesAt_eq (ByteMem.holds_append.mp hs.holds).1
  have hwrite : fwrite write m p 1 s.length stream out =
      ((s.length : Int), out ++ s) := by
    rw [fwrite, hcount, hbytes, h.sysWrite hlen]
  rw [MiniCrt.fputs, strlen_spec hs, Option.bind_eq_bind, Option.bind_some,
    int32_of_lt hlen]
  dsimp only
  rw [hwrite]
  exact congrArg some (if_neg fun hne => hne rfl)

theorem fputs_long (hs : m.CStr p s) (hlen : 2 ^ 31 ≤ s.length) :
    ∃ n out', fputs write m p stream out = some (n, out') ∧ n < 0 := by
  have hfits := hs.fits
  have hneg := int32_neg_of_le hlen (by omega)
  rw [MiniCrt.fputs, strlen_spec hs]
  by_cases hn : (fwrite write m p 1 (int32 s.length) stream out).1 ≠
      int32 s.length
  · exact ⟨EOF, _, congrArg some (if_pos hn), by decide⟩
  · exact ⟨int32 s.length, _, congrArg some (if_neg hn), hneg⟩

end Writes

/-! ## One round -/

/-- The bytes of the buffer. -/
def InBuffer (buf a : Nat) : Prop := buf ≤ a ∧ a < buf + 16

theorem Clear.not_inBuffer {buf lo hi a : Nat} (h : Clear buf lo hi)
    (hlo : lo ≤ a) (hhi : a < hi) : ¬ InBuffer buf a := by
  rintro ⟨h₁, h₂⟩
  rcases h with h | h <;> omega

theorem ArgsAt.outside {buf : Nat} {m m' : ByteMem}
    (hout : ByteMem.Outside (InBuffer buf) m m') :
    ∀ {args : List Arg} {ap : Nat}, ArgsAt buf m ap args →
      ArgsAt buf m' ap args := by
  have hword : ∀ {ap}, Clear buf ap (ap + 4) → m'.load32 ap = m.load32 ap :=
    fun hclear => ByteMem.load32_congr fun a hlo hhi =>
      hout a (hclear.not_inBuffer hlo hhi)
  intro args
  induction args with
  | nil => intro ap _; exact trivial
  | cons a args ih =>
      intro ap h
      cases a with
      | int n =>
          obtain ⟨hn, hclear, hrest⟩ := h
          exact ⟨by rw [hword hclear, hn], hclear, ih hrest⟩
      | str s =>
          obtain ⟨hs, hstr, hclear, hrest⟩ := h
          rw [ArgsAt, hword hclear]
          exact ⟨hs.outside hout fun b hlo hhi =>
            hstr.not_inBuffer hlo (by omega), hstr, hclear, ih hrest⟩

/-- A round that prints `w` and takes `j` bytes of arguments where `C` holds,
and after which `vfprintf` has failed where it does not. -/
structure Prints (buf : Nat) (s : Fmt) (r : Option (Except (List UInt8) Fmt))
    (w : List UInt8) (j : Nat) (C : Prop) : Prop where
  goesOn : C → ∃ m, ByteMem.Outside (InBuffer buf) s.mem m ∧
    r = some (.ok ⟨m, s.arglist + j, false, int32 (s.ret + w.length),
      s.out ++ w⟩)
  fails : ¬ C → r = none ∨ ∃ out, r = some (.error out)

section Rounds

variable {write : Int → List UInt8 → Int} {buf : Nat} {stream : Int}
  {s : Fmt}

theorem printChar_prints (hw : WritesAll write stream) (c : UInt8) (s : Fmt) :
    Prints buf s (some (printChar write stream c s)) [c] 0 (c < 0x80) := by
  rw [printChar, hw.fputc]
  dsimp only
  constructor
  · intro hc
    have hneg : ¬ charInt c < 0 := fun h => (charInt_neg_iff c).mp h hc
    rw [if_neg hneg]
    exact ⟨s.mem, ByteMem.Outside.refl _ _, rfl⟩
  · intro hc
    rw [if_pos ((charInt_neg_iff c).mpr hc)]
    exact .inr ⟨_, rfl⟩

theorem printStr_prints (hw : WritesAll write stream) {p : Nat}
    {w : List UInt8} (hs : s.mem.CStr p w) :
    Prints buf s (printStr write stream p s) w 0 (w.length < 2 ^ 31) := by
  rw [printStr]
  constructor
  · intro hlen
    have hneg : ¬ (w.length : Int) < 0 := by omega
    rw [hw.fputs hs hlen, Option.bind_eq_bind, Option.bind_some]
    dsimp only
    rw [if_neg hneg, strlen_spec hs]
    exact ⟨s.mem, ByteMem.Outside.refl _ _, rfl⟩
  · intro hlen
    obtain ⟨n, out, hrun, hneg⟩ := fputs_long hs (Nat.le_of_not_lt hlen)
    rw [hrun, Option.bind_eq_bind, Option.bind_some]
    dsimp only
    rw [if_pos hneg]
    exact .inr ⟨out, rfl⟩

theorem numeral_ten_length {n : Int} (h : -2 ^ 31 < n) (h' : n < 2 ^ 31) :
    (numeral 10 n).length ≤ 11 := by
  have hdigits : (digitsOf 10 n.natAbs).length ≤ 10 :=
    digitsOf_length_le (by decide) (by decide) (by omega)
  rw [numeral, List.length_append, List.length_map]
  split
  · rw [List.length_singleton]
    omega
  · rw [List.length_nil]
    omega

theorem int32_bounds (x : Int) : -2 ^ 31 ≤ int32 x ∧ int32 x < 2 ^ 31 := by
  have hlow := @Int.le_bmod x (2 ^ 32) (by decide)
  have hhigh := @Int.bmod_lt x (2 ^ 32) (by decide)
  rw [int32]
  omega

/-- `%d`. -/
theorem intArg_prints (hw : WritesAll write stream) (hbuf : 0 < buf)
    (hfits : buf + 16 ≤ 2 ^ 32) (n : Int)
    (hword : int32 (s.mem.load32 s.arglist) = n) (ht : s.translating = true) :
    Prints buf s (vfprintfChar write buf stream 0x64 s) (numeral 10 n) 4
      (n ≠ -2 ^ 31) := by
  have hcode : vfprintfChar write buf stream 0x64 s =
      (itoa s.mem n buf 10).bind fun r =>
        printStr write stream buf
          { s with mem := r.1, arglist := s.arglist + 4 } := by
    rw [vfprintfChar, if_neg (by decide), if_pos rfl, if_pos ht, hword]
    rfl
  have hbounds := int32_bounds (s.mem.load32 s.arglist)
  rw [hword] at hbounds
  rw [hcode]
  constructor
  · intro hne
    have hlt : -2 ^ 31 < n := by omega
    have hlen := numeral_ten_length hlt hbounds.2
    obtain ⟨m, hrun, hholds, hout⟩ := @itoa_spec 10 buf n (by decide)
      (by decide) hlt hbounds.2 (.inr rfl) hbuf s.mem
    have hstr : m.CStr buf (numeral 10 n) :=
      ⟨hbuf, by omega, numeral_nonzero (by decide) (by decide), hholds⟩
    have hrun : itoa s.mem n buf 10 = some (m, buf) := hrun
    rw [hrun, Option.bind_some]
    obtain ⟨m', hout', hprint⟩ := (@printStr_prints write buf stream
      { s with mem := m, arglist := s.arglist + 4 } hw buf _ hstr).goesOn
        (by omega)
    refine ⟨m', ByteMem.Outside.trans (hout.mono fun a ha => ?_) hout', hprint⟩
    exact ⟨ha.1, by omega⟩
  · intro hleast
    rw [not_not.mp hleast, itoa_least s.mem hbuf]
    exact .inl rfl

/-- `%s`. -/
theorem strArg_prints (hw : WritesAll write stream) {w : List UInt8}
    (hs : s.mem.CStr (s.mem.load32 s.arglist) w) (ht : s.translating = true) :
    Prints buf s (vfprintfChar write buf stream 0x73 s) w 4
      (w.length < 2 ^ 31) := by
  have hcode : vfprintfChar write buf stream 0x73 s =
      printStr write stream (s.mem.load32 s.arglist)
        { s with arglist := s.arglist + 4 } := by
    rw [vfprintfChar, if_neg (by decide), if_neg (by decide), if_pos rfl,
      if_pos ht]
  rw [hcode]
  obtain ⟨hgoes, hfails⟩ := @printStr_prints write buf stream
    { s with arglist := s.arglist + 4 } hw _ _ hs
  exact ⟨hgoes, hfails⟩

/-- A byte that stands for itself: where nothing is translated, every byte
but `%`, and behind a `%` every byte but `d` and `s`. -/
theorem plain_prints (hw : WritesAll write stream) {c : UInt8}
    (hc : if s.translating then c ≠ 0x64 ∧ c ≠ 0x73 else c ≠ 0x25) :
    Prints buf s (vfprintfChar write buf stream c s) [c] 0 (c < 0x80) := by
  have hcode : vfprintfChar write buf stream c s =
      some (printChar write stream c s) := by
    rw [vfprintfChar]
    cases ht : s.translating with
    | true =>
        rw [ht, if_pos rfl] at hc
        rw [if_pos rfl, if_neg hc.1, if_neg hc.2]
        split
        · next h => rw [h]
        · rfl
    | false =>
        rw [ht, if_neg (by decide)] at hc
        rw [if_neg hc]
        split
        · next h => rw [h]; rfl
        · split
          · next h => rw [h]; rfl
          · rfl
  rw [hcode]
  exact printChar_prints hw c s

end Rounds

/-! ## Expansions -/

section Expansions

variable {c d : UInt8} {f e : List UInt8} {args : List Arg}

theorem expand_plain (hc : c ≠ 0x25) :
    expand (c :: f) args = (expand f args).map (c :: ·) := by
  cases f with
  | nil =>
      cases args with
      | nil => exact congrArg some (if_neg hc)
      | cons a args => rfl
  | cons d f => rw [expand, if_neg hc]

theorem expand_escaped (hd : d ≠ 0x64) (hd' : d ≠ 0x73) :
    expand (0x25 :: d :: f) args = (expand f args).map (d :: ·) := by
  rw [expand, if_pos rfl, if_neg hd, if_neg hd']

theorem expand_int (h : expand (0x25 :: 0x64 :: f) args = some e) :
    ∃ n args' e', args = .int n :: args' ∧ expand f args' = some e' ∧
      e = numeral 10 n ++ e' := by
  rw [expand, if_pos rfl, if_pos rfl] at h
  match args, h with
  | .int n :: args, h =>
      rw [nextInt, Option.bind_some] at h
      obtain ⟨e', he, rfl⟩ := Option.map_eq_some_iff.mp h
      exact ⟨n, args, e', rfl, he, rfl⟩

theorem expand_str (h : expand (0x25 :: 0x73 :: f) args = some e) :
    ∃ s args' e', args = .str s :: args' ∧ expand f args' = some e' ∧
      e = s ++ e' := by
  rw [expand, if_pos rfl, if_neg (by decide), if_pos rfl] at h
  match args, h with
  | .str s :: args, h =>
      rw [nextStr, Option.bind_some] at h
      obtain ⟨e', he, rfl⟩ := Option.map_eq_some_iff.mp h
      exact ⟨s, args, e', rfl, he, rfl⟩

/-- The expansion contains the strings that are printed. -/
theorem length_le_expand : ∀ {f e : List UInt8} {args : List Arg},
    expand f args = some e → ∀ s, .str s ∈ args → s.length ≤ e.length := by
  intro f
  induction f using List.twoStepInduction with
  | nil =>
      intro e args h s hs
      cases args with
      | nil => cases hs
      | cons a args => cases h
  | singleton c =>
      intro e args h s hs
      cases args with
      | nil => cases hs
      | cons a args => cases h
  | cons_cons c d f ih ih' =>
      intro e args h s hs
      by_cases hc : c = 0x25
      · subst hc
        by_cases hd : d = 0x64
        · subst hd
          obtain ⟨n, args, e, rfl, he, rfl⟩ := expand_int h
          have hmem := (List.mem_cons.mp hs).resolve_left nofun
          have hle := ih he s hmem
          rw [List.length_append]
          omega
        · by_cases hd' : d = 0x73
          · subst hd'
            obtain ⟨w, args, e, rfl, he, rfl⟩ := expand_str h
            rw [List.length_append]
            rcases List.mem_cons.mp hs with heq | hmem
            · cases heq
              omega
            · have hle := ih he s hmem
              omega
          · rw [expand_escaped hd hd'] at h
            obtain ⟨e, he, rfl⟩ := Option.map_eq_some_iff.mp h
            exact Nat.le_succ_of_le (ih he s hs)
      · rw [expand_plain hc] at h
        obtain ⟨e, he, rfl⟩ := Option.map_eq_some_iff.mp h
        exact Nat.le_succ_of_le (ih' d he s hs)

end Expansions

/-! ## The loop -/

/-- The argument can be printed. -/
def Arg.Printable : Arg → Prop
  | .int n => n ≠ -2 ^ 31
  | .str s => s.length < 2 ^ 31

/-- Nothing in the format or the arguments stops `vfprintf`. -/
def Printable (f : List UInt8) (args : List Arg) : Prop :=
  (∀ c ∈ f, c < 0x80) ∧ ∀ a ∈ args, a.Printable

/-- `vfprintf` answers `n` and has written `out` where `C` holds, and has
failed where it does not. -/
structure Outcome (r : Option (Int × List UInt8)) (C : Prop) (n : Int)
    (out : List UInt8) : Prop where
  done : C → r = some (n, out)
  fails : ¬ C → r = none ∨ ∃ out', r = some (EOF, out')

section Loop

variable {write : Int → List UInt8 → Int} {buf : Nat} {stream : Int}

theorem int32_add (k n : Nat) : int32 (int32 k + n) = int32 (k + n : Nat) := by
  rw [int32, int32, int32, Int.bmod_add_bmod, Int.natCast_add]

/-- One round, and the rest of the loop. -/
theorem Prints.outcome {s : Fmt} {c : UInt8} {w e' : List UInt8}
    {j k p fuel : Nat} {C G G' : Prop}
    (h : Prints buf s (vfprintfChar write buf stream c s) w j C)
    (hbyte : s.mem.byte p = c) (hc : c ≠ 0) (hret : s.ret = int32 k)
    (hnext : ∀ m, ByteMem.Outside (InBuffer buf) s.mem m →
      Outcome (vfprintfLoop write buf stream fuel (p + 1)
        ⟨m, s.arglist + j, false, int32 (k + w.length : Nat), s.out ++ w⟩) G'
        (int32 (k + w.length + e'.length : Nat)) (s.out ++ w ++ e'))
    (hG : G ↔ C ∧ G') :
    Outcome (vfprintfLoop write buf stream (fuel + 1) p s) G
      (int32 (k + (w ++ e').length : Nat)) (s.out ++ (w ++ e')) := by
  have hne : ¬ s.mem.byte p = 0 := by rwa [hbyte]
  rw [vfprintfLoop, if_neg hne, hbyte, List.length_append, ← Nat.add_assoc,
    ← List.append_assoc]
  by_cases hC : C
  · obtain ⟨m, hout, hrun⟩ := h.goesOn hC
    rw [hrun, hret, int32_add]
    obtain ⟨hdone, hfails⟩ := hnext m hout
    exact ⟨fun hg => hdone (hG.mp hg).2,
      fun hg => hfails fun hg' => hg (hG.mpr ⟨hC, hg'⟩)⟩
  · refine ⟨fun hg => absurd (hG.mp hg).1 hC, fun _ => ?_⟩
    rcases h.fails hC with hrun | ⟨out, hrun⟩
    · rw [hrun]
      exact .inl rfl
    · rw [hrun]
      exact .inr ⟨out, rfl⟩

theorem printable_cons {c : UInt8} {f : List UInt8} {args : List Arg} :
    Printable (c :: f) args ↔ c < 0x80 ∧ Printable f args := by
  rw [Printable, List.forall_mem_cons, and_assoc]
  rfl

theorem printable_arg {f : List UInt8} {a : Arg} {args : List Arg} :
    Printable f (a :: args) ↔ a.Printable ∧ Printable f args := by
  rw [Printable, List.forall_mem_cons, and_left_comm]
  rfl

/-- From any state of the loop: what is left of the format is expanded, with
the `%` in front of it if one has just been read. -/
theorem vfprintfLoop_spec (hw : WritesAll write stream) (hbuf : 0 < buf)
    (hfits : buf + 16 ≤ 2 ^ 32) :
    ∀ {f e : List UInt8} {p k fuel : Nat} {s : Fmt} {args : List Arg},
      s.mem.CStr p f → Clear buf p (p + f.length + 1) →
      ArgsAt buf s.mem s.arglist args →
      expand (if s.translating then 0x25 :: f else f) args = some e →
      s.ret = int32 k → f.length < fuel →
      Outcome (vfprintfLoop write buf stream fuel p s) (Printable f args)
        (int32 (k + e.length : Nat)) (s.out ++ e) := by
  intro f
  induction f with
  | nil =>
      intro e p k fuel s args hf _ _ he hret hfuel
      obtain ⟨fuel, rfl⟩ : ∃ n, fuel = n + 1 := ⟨fuel - 1, by omega⟩
      have hnil : args = [] ∧ e = [] := by
        cases ht : s.translating <;> rw [ht] at he <;> cases args with
        | nil => exact ⟨rfl, (Option.some.inj he).symm⟩
        | cons a args => cases he
      obtain ⟨rfl, rfl⟩ := hnil
      rw [vfprintfLoop, if_pos hf.byte_end, hret, List.append_nil]
      exact ⟨fun _ => rfl, fun h => absurd ⟨nofun, nofun⟩ h⟩
  | cons c f ih =>
      intro e p k fuel s args hf hclear hargs he hret hfuel
      obtain ⟨fuel, rfl⟩ : ∃ n, fuel = n + 1 := ⟨fuel - 1, by omega⟩
      obtain ⟨-, hbyte, hc0, hf'⟩ := ByteMem.cstr_cons.mp hf
      rw [List.length_cons] at hclear hfuel
      have hclear' : Clear buf (p + 1) (p + 1 + f.length + 1) := by
        rw [Clear] at hclear ⊢
        omega
      have hfuel' : f.length < fuel := by omega
      have hrest : ∀ m, ByteMem.Outside (InBuffer buf) s.mem m →
          m.CStr (p + 1) f := fun m hout =>
        hf'.outside hout fun b hlo hhi => hclear'.not_inBuffer hlo (by omega)
      have hnext : ∀ {m w e' args j},
          ByteMem.Outside (InBuffer buf) s.mem m →
          ArgsAt buf s.mem (s.arglist + j) args → expand f args = some e' →
          Outcome (vfprintfLoop write buf stream fuel (p + 1)
            ⟨m, s.arglist + j, false, int32 (k + w.length : Nat), s.out ++ w⟩)
            (Printable f args) (int32 (k + w.length + e'.length : Nat))
            (s.out ++ w ++ e') := by
        intro m w e' args j hout hargs he'
        exact ih (hrest m hout) hclear' (hargs.outside hout) he'
          (by dsimp only) hfuel'
      -- a byte that stands for itself
      have hplain : ∀ {e'}, (if s.translating then c ≠ 0x64 ∧ c ≠ 0x73
            else c ≠ 0x25) → expand f args = some e' →
          Outcome (vfprintfLoop write buf stream (fuel + 1) p s)
            (Printable (c :: f) args) (int32 (k + ([c] ++ e').length : Nat))
            (s.out ++ ([c] ++ e')) := fun hc he' =>
        (plain_prints hw hc).outcome hbyte hc0 hret
          (fun m hout => hnext hout hargs he') printable_cons
      cases ht : s.translating with
      | false =>
          rw [ht, if_neg (by decide)] at he
          rw [ht, if_neg (by decide)] at hplain
          by_cases hpercent : c = 0x25
          · subst hpercent
            have hrun : vfprintfLoop write buf stream (fuel + 1) p s =
                vfprintfLoop write buf stream fuel (p + 1)
                  { s with translating := true } := by
              rw [vfprintfLoop, hbyte, if_neg hc0, vfprintfChar, if_pos rfl, ht,
                if_neg (by decide)]
            have hout := @ih e (p + 1) k fuel { s with translating := true }
              args hf' hclear' hargs he hret hfuel'
            rw [hrun]
            refine ⟨fun h => hout.done (printable_cons.mp h).2,
              fun h => hout.fails fun hg => h (printable_cons.mpr ⟨?_, hg⟩)⟩
            decide
          · rw [expand_plain hpercent] at he
            obtain ⟨e', he', rfl⟩ := Option.map_eq_some_iff.mp he
            exact hplain hpercent he'
      | true =>
          rw [ht, if_pos rfl] at he
          rw [ht, if_pos rfl] at hplain
          by_cases hd : c = 0x64
          · subst hd
            obtain ⟨n, args, e', rfl, he', rfl⟩ := expand_int he
            obtain ⟨hword, -, hargs'⟩ := hargs
            refine (intArg_prints hw hbuf hfits n hword ht).outcome hbyte hc0
              hret (fun m hout => hnext hout hargs' he') ?_
            rw [printable_cons, printable_arg]
            exact and_iff_right (by decide)
          · by_cases hs : c = 0x73
            · subst hs
              obtain ⟨w, args, e', rfl, he', rfl⟩ := expand_str he
              obtain ⟨hstr, -, -, hargs'⟩ := hargs
              refine (strArg_prints hw hstr ht).outcome hbyte hc0 hret
                (fun m hout => hnext hout hargs' he') ?_
              rw [printable_cons, printable_arg]
              exact and_iff_right (by decide)
            · rw [expand_escaped hd hs] at he
              obtain ⟨e', he', rfl⟩ := Option.map_eq_some_iff.mp he
              exact hplain ⟨hd, hs⟩ he'

end Loop

/-- With every write complete, `vfprintf` writes the expansion of its format
and returns its length if and only if the format is plain ASCII, no `%d`
stands for the least `int` and the length is an `int`. -/
theorem vfprintf_iff (write : Int → List UInt8 → Int) (stream : Int)
    (hw : WritesAll write stream) (m : ByteMem) (buf : Nat) (hbuf : 0 < buf)
    (hfits : buf + 16 ≤ 2 ^ 32) (format arglist : Nat) (f : List UInt8)
    (args : List Arg) (e : List UInt8) (hf : m.CStr format f)
    (hclear : Clear buf format (format + f.length + 1))
    (hargs : ArgsAt buf m arglist args) (he : expand f args = some e) :
    vfprintf write m buf stream format arglist = some ((e.length : Int), e) ↔
      (∀ c ∈ f, c < 0x80) ∧ (∀ n, .int n ∈ args → n ≠ -2 ^ 31) ∧
        e.length < 2 ^ 31 := by
  have hlen := hf.fits
  have hzero : (0 : Int) = int32 (0 : Nat) := by decide
  have houtcome := @vfprintfLoop_spec write buf stream hw hbuf hfits f e format
    0 (2 ^ 32) ⟨m, arglist, false, 0, []⟩ args hf hclear hargs he hzero
    (by omega)
  rw [Nat.zero_add, List.nil_append] at houtcome
  constructor
  · intro hrun
    rw [vfprintf] at hrun
    have hprint : Printable f args := by
      refine not_not.mp fun hnot => ?_
      rcases houtcome.fails hnot with hloop | ⟨out, hloop⟩
      · rw [hloop] at hrun
        cases hrun
      · rw [hloop, Option.some_inj, Prod.mk.injEq] at hrun
        have hneg : (-1 : Int) = e.length := hrun.1
        omega
    refine ⟨hprint.1, fun n hn => hprint.2 (.int n) hn, ?_⟩
    rw [houtcome.done hprint, Option.some_inj, Prod.mk.injEq] at hrun
    have hbounds := int32_bounds e.length
    rw [hrun.1] at hbounds
    omega
  · intro ⟨hascii, hints, hshort⟩
    have hprint : Printable f args := by
      refine ⟨hascii, fun a ha => ?_⟩
      cases a with
      | int n => exact hints n ha
      | str s => exact Nat.lt_of_le_of_lt (length_le_expand he s ha) hshort
    rw [vfprintf, houtcome.done hprint, int32_of_lt hshort]

def text (s : String) : List UInt8 :=
  s.toList.map fun c => UInt8.ofNat c.toNat

/-- Two words at 16, a format at 32 and a string at 64. -/
def exampleCall : ByteMem where
  byte a :=
    if a < 32 then [13, 0, 0, 0, 64, 0, 0, 0].getD (a - 16) 0
    else if a < 64 then (text "Line number %d: %s\n").getD (a - 32) 0
    else (text "hello world").getD (a - 64) 0

theorem vfprintf_line :
    vfprintf (fun _ bytes => bytes.length) exampleCall 4096 1 32 16 =
      some (28, text "Line number 13: hello world\n") := by
  have hargs : ArgsAt 4096 exampleCall 16
      [.int 13, .str (text "hello world")] :=
    ⟨by decide +kernel, .inl (by decide), by decide +kernel,
      .inl (by decide +kernel), .inl (by decide), trivial⟩
  exact (vfprintf_iff (fun _ bytes => bytes.length) 1 (fun _ _ => rfl)
    exampleCall 4096 (by decide) (by decide) 32 16
    (text "Line number %d: %s\n") _ (text "Line number 13: hello world\n")
    (by decide +kernel) (.inl (by decide +kernel)) hargs
    (by decide +kernel)).mpr
    ⟨by decide +kernel, by simp, by decide +kernel⟩

/-- The two bytes of a letter with an accent: the first is written, and
`vfprintf` gives up. -/
theorem not_vfprintf_accent :
    let m : ByteMem := ⟨fun a => [0xC3, 0xA9].getD (a - 32) 0⟩
    m.CStr 32 [0xC3, 0xA9] ∧ expand [0xC3, 0xA9] [] = some [0xC3, 0xA9] ∧
      vfprintf (fun _ bytes => bytes.length) m 4096 1 32 16 =
        some (EOF, [0xC3]) ∧
      vfprintf (fun _ bytes => bytes.length) m 4096 1 32 16 ≠
        some (2, [0xC3, 0xA9]) := by
  decide +kernel

end LearningLinux.MiniCrt
