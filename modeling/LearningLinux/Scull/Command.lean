import LearningLinux.Scull.Ioctl

/-!
# The command word of an `ioctl`, and what a failure leaves behind

A command is a word with a direction, a size, a type and a number, and
`scull_ioctl` takes any word: the wrong type or a number above the last is
refused first, then a pointer that `access_ok` does not pass, and at the
switch whatever is not one of the commands of `scull.h`.

A failure that comes before the switch, or from a missing capability, changes
nothing. Behind that the commands store before they know how they end. A set
and an exchange have the kernel read straight into the parameter, so that a
fault leaves 0 in it; an exchange whose answer cannot be written has stored
the new value already; and a shift returns the old value, which the caller
takes for an error if it is a small negative number. `WordKeeps` says when
none of this shows.
-/

namespace LearningLinux.Scull

/-! ## Words -/

def IOC_WRITE : Nat := 1
def IOC_READ : Nat := 2

def SCULL_IOC_MAGIC : Nat := 'k'.toNat
def SCULL_IOC_MAXNR : Nat := 14

/-- `_IOC` -/
def ioc (dir type nr size : Nat) : BitVec 32 :=
  BitVec.ofNat 32 (2 ^ 30 * dir + 2 ^ 16 * size + 2 ^ 8 * type + nr)

def iocDir (cmd : BitVec 32) : Nat := cmd.toNat / 2 ^ 30
def iocType (cmd : BitVec 32) : Nat := cmd.toNat / 2 ^ 8 % 2 ^ 8
def iocNr (cmd : BitVec 32) : Nat := cmd.toNat % 2 ^ 8

/-- The commands without a pointer, and those with one to an `int`. -/
def io (nr : Nat) : BitVec 32 := ioc 0 SCULL_IOC_MAGIC nr 0
def iow (nr : Nat) : BitVec 32 := ioc IOC_WRITE SCULL_IOC_MAGIC nr 4
def ior (nr : Nat) : BitVec 32 := ioc IOC_READ SCULL_IOC_MAGIC nr 4
def iowr (nr : Nat) : BitVec 32 :=
  ioc (IOC_READ + IOC_WRITE) SCULL_IOC_MAGIC nr 4

def Cmd.word : Cmd → BitVec 32
  | .reset => io 0
  | .quantum .S => iow 1
  | .qset .S => iow 2
  | .quantum .T => io 3
  | .qset .T => io 4
  | .quantum .G => ior 5
  | .qset .G => ior 6
  | .quantum .Q => io 7
  | .qset .Q => io 8
  | .quantum .X => iowr 9
  | .qset .X => iowr 10
  | .quantum .H => io 11
  | .qset .H => io 12
  | .pTSize => io 13
  | .pQSize => io 14

/-- The cases of the switch. -/
def commands : List Cmd :=
  [.reset, .quantum .S, .quantum .T, .quantum .G, .quantum .Q, .quantum .X,
    .quantum .H, .qset .S, .qset .T, .qset .G, .qset .Q, .qset .X, .qset .H,
    .pTSize, .pQSize]

def commandOf (cmd : BitVec 32) : Option Cmd := commands.find? (·.word = cmd)

/-! ## The call -/

def EPERM : Int := 1
def EFAULT : Int := 14
def ENOTTY : Int := 25

/-- The number that is returned. -/
def Answer.code : Answer → Int
  | .value v => v
  | .eperm => -EPERM
  | .efault => -EFAULT

/-- `scull_ioctl` with any word for a command. -/
def ioctlWord (p : Params) (cmd : BitVec 32) (c : IoctlCall) : Int × Params :=
  if iocType cmd ≠ SCULL_IOC_MAGIC then (-ENOTTY, p)
  else if iocNr cmd > SCULL_IOC_MAXNR then (-ENOTTY, p)
  -- either bit of the direction asks `access_ok`
  else if iocDir cmd ≠ 0 ∧ ¬ c.accessOk then (-EFAULT, p)
  else match commandOf cmd with
    | some k =>
        let r := scullIoctl p k c
        (r.1.code, r.2)
    | none => (-ENOTTY, p)

/-- What the kernel takes for an error: `MAX_ERRNO` is 4095. -/
def IsError (r : Int) : Prop := -4095 ≤ r ∧ r < 0

instance (r : Int) : Decidable (IsError r) := by
  unfold IsError
  infer_instance

/-! ## When a failure changes nothing -/

/-- A command for a parameter does not store before it fails, or stores what
is there. -/
def Verb.Keeps (c : IoctlCall) (param : Int) : Verb → Prop
  | .S => c.user = none → param = 0
  | .X => match c.user with
      | none => param = 0
      | some v => c.putOk ∨ intOf v = param
  | .H => IsError param → intOf c.arg = param
  | _ => True

def Cmd.Keeps (p : Params) (c : IoctlCall) : Cmd → Prop
  | .quantum v => v.Keeps c p.scull_quantum
  | .qset v => v.Keeps c p.scull_qset
  | _ => True

/-- The same of a word, once the call has come to the switch with the
capability. -/
def WordKeeps (p : Params) (cmd : BitVec 32) (c : IoctlCall) : Prop :=
  ∀ k, commandOf cmd = some k → (k.direction → c.accessOk) → c.capable →
    k.Keeps p c

variable {p : Params} {cmd : BitVec 32} {c : IoctlCall} {k : Cmd}

theorem commandOf_word (h : commandOf cmd = some k) : k.word = cmd := by
  simpa using List.find?_some h

/-- The commands of the switch pass the tests in front of it, and their
direction is the one of `Cmd`. -/
theorem word_fields (k : Cmd) : iocType k.word = SCULL_IOC_MAGIC ∧
    iocNr k.word ≤ SCULL_IOC_MAXNR ∧ (iocDir k.word ≠ 0 ↔ k.direction) := by
  cases k with
  | quantum v => cases v <;> decide
  | qset v => cases v <;> decide
  | reset => decide
  | pTSize => decide
  | pQSize => decide

theorem ioctlWord_command (h : commandOf cmd = some k) :
    ioctlWord p cmd c = ((scullIoctl p k c).1.code, (scullIoctl p k c).2) := by
  obtain ⟨htype, hnr, hdir⟩ := word_fields k
  rw [commandOf_word h] at htype hnr hdir
  rw [ioctlWord, if_neg (not_not_intro htype), if_neg (Nat.not_lt.mpr hnr)]
  by_cases hrefused : iocDir cmd ≠ 0 ∧ ¬ c.accessOk
  · have hagain : k.direction ∧ ¬ c.accessOk := ⟨hdir.mp hrefused.1, hrefused.2⟩
    have hearly : scullIoctl p k c = (.efault, p) := if_pos hagain
    rw [if_pos hrefused, hearly]
    rfl
  · rw [if_neg hrefused, h]

theorem ioctlWord_other (h : commandOf cmd = none) :
    (ioctlWord p cmd c).2 = p := by
  rw [ioctlWord, h]
  split
  · rfl
  · split
    · rfl
    · split
      · rfl
      · rfl

theorem isError_putUser (c : IoctlCall) :
    IsError (putUserUnchecked c).code ↔ ¬ c.putOk := by
  rw [putUserUnchecked]
  split
  · next h => exact iff_of_false (by decide) (not_not_intro h)
  · next h => exact iff_of_true (by decide) h

/-- Without the capability a parameter stays. -/
theorem paramIoctl_incapable (put : IoctlCall → Answer) (h : ¬ c.capable)
    (param : Int) (v : Verb) : (paramIoctl put c param v).2 = param := by
  cases v with
  | S => exact congrArg Prod.snd (if_pos h)
  | T => exact congrArg Prod.snd (if_pos h)
  | G => rfl
  | Q => rfl
  | X => exact congrArg Prod.snd (if_pos h)
  | H => exact congrArg Prod.snd (if_pos h)

/-- One command for a parameter: a failure leaves it as it was if and only if
the command keeps it. -/
theorem paramIoctl_keeps (hcap : c.capable) (param : Int) (v : Verb) :
    (IsError (paramIoctl putUserUnchecked c param v).1.code →
      (paramIoctl putUserUnchecked c param v).2 = param) ↔ v.Keeps c param := by
  have hefault : IsError (Answer.efault).code := by decide
  have hvalue : ¬ IsError (Answer.value 0).code := by decide
  have hpass : ¬ ¬ c.capable := not_not_intro hcap
  cases v with
  | S =>
      rw [paramIoctl, if_neg hpass, Verb.Keeps]
      cases c.user with
      | none => simp [hefault, eq_comm]
      | some v => simp [hvalue]
  | T =>
      rw [paramIoctl, if_neg hpass]
      exact iff_of_true (fun h => absurd h hvalue) trivial
  | G => exact iff_of_true (fun _ => rfl) trivial
  | Q => exact iff_of_true (fun _ => rfl) trivial
  | X =>
      rw [paramIoctl, if_neg hpass, Verb.Keeps]
      cases c.user with
      | none => simp [hefault, eq_comm]
      | some v =>
          -- the new value is in place, and the answer is still to be written
          simp only [isError_putUser]
          exact Decidable.or_iff_not_imp_left.symm
  | H =>
      simp only [paramIoctl, if_neg hpass, Answer.code, Verb.Keeps]

theorem quantum_eq {q : Int} : { p with scull_quantum := q } = p ↔
    q = p.scull_quantum :=
  ⟨fun h => congrArg Params.scull_quantum h, fun h => by rw [h]⟩

theorem qset_eq {q : Int} : { p with scull_qset := q } = p ↔
    q = p.scull_qset :=
  ⟨fun h => congrArg Params.scull_qset h, fun h => by rw [h]⟩

/-- The same of every command, once `access_ok` has passed its pointer. -/
theorem scullIoctl_keeps (haccess : k.direction → c.accessOk)
    (hcap : c.capable) : (IsError (scullIoctl p k c).1.code →
      (scullIoctl p k c).2 = p) ↔ k.Keeps p c := by
  have hpass : ¬ (k.direction ∧ ¬ c.accessOk) := fun h => h.2 (haccess h.1)
  have hvalue : ¬ IsError (Answer.value 0).code := by decide
  rw [scullIoctl.eq_def, if_neg hpass]
  cases k with
  | reset => exact iff_of_true (fun h => absurd h hvalue) trivial
  | quantum v =>
      exact (imp_congr_right fun _ => quantum_eq).trans
        (paramIoctl_keeps hcap _ v)
  | qset v =>
      simp only [paramIoctl_putUser haccess]
      exact (imp_congr_right fun _ => qset_eq).trans
        (paramIoctl_keeps hcap _ v)
  | pTSize => exact iff_of_true (fun h => absurd h hvalue) trivial
  | pQSize => exact iff_of_true (fun _ => rfl) trivial

/-- What needs no capability and does not come to store. -/
theorem scullIoctl_early (h : ¬ ((k.direction → c.accessOk) ∧ c.capable)) :
    IsError (scullIoctl p k c).1.code → (scullIoctl p k c).2 = p := by
  rw [scullIoctl.eq_def]
  split
  · exact fun _ => rfl
  · next hpass =>
      have hvalue : ¬ IsError (Answer.value 0).code := by decide
      have hcap : ¬ c.capable := fun hcap =>
        h ⟨fun hd => Decidable.byContradiction fun ha => hpass ⟨hd, ha⟩, hcap⟩
      cases k with
      | reset => exact fun herror => absurd herror hvalue
      | quantum v =>
          exact fun _ => quantum_eq.mpr (paramIoctl_incapable _ hcap _ v)
      | qset v => exact fun _ => qset_eq.mpr (paramIoctl_incapable _ hcap _ v)
      | pTSize => exact fun herror => absurd herror hvalue
      | pQSize => exact fun _ => rfl

/-- A failure of `scull_ioctl` changes no parameter if and only if a set or an
exchange that comes to read can read, or finds 0 in place, an exchange that
has read can also write, or has read what was there, and a shift finds no
number of an error, or leaves it. -/
theorem ioctlWord_keeps_iff (p : Params) (cmd : BitVec 32) (c : IoctlCall) :
    (IsError (ioctlWord p cmd c).1 → (ioctlWord p cmd c).2 = p) ↔
      WordKeeps p cmd c := by
  cases hcommand : commandOf cmd with
  | none =>
      refine iff_of_true (fun _ => ioctlWord_other hcommand) fun k hk => ?_
      cases hcommand.symm.trans hk
  | some k =>
      rw [ioctlWord_command hcommand]
      by_cases hreached : (k.direction → c.accessOk) ∧ c.capable
      · refine (scullIoctl_keeps hreached.1 hreached.2).trans ⟨?_, ?_⟩
        · intro hkeeps k' hk'
          cases hcommand.symm.trans hk'
          exact fun _ _ => hkeeps
        · intro hkeeps
          exact hkeeps k hcommand hreached.1 hreached.2
      · refine iff_of_true (scullIoctl_early hreached) fun k' hk' => ?_
        cases hcommand.symm.trans hk'
        exact fun haccess hcap => absurd ⟨haccess, hcap⟩ hreached

/-- An administrator sets the quantum from an address that `access_ok` passes
and the kernel cannot read. -/
theorem ioctlWord_not_keeps :
    let c : IoctlCall := ⟨0x1000, true, true, none, false⟩
    let p : Params := ⟨SCULL_QUANTUM, SCULL_QSET, SCULL_P_BUFFER⟩
    ioctlWord p (iow 1) c = (-EFAULT, { p with
      scull_quantum := 0 }) ∧
    ¬ (IsError (ioctlWord p (iow 1) c).1 → (ioctlWord p (iow 1) c).2 = p) := by
  decide

end LearningLinux.Scull
