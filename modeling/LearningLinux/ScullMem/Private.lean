import Mathlib.Data.Fintype.Defs
import LearningLinux.ScullMem.Division

/-!
# scullpriv

`scull_c_open` looks for the device of the caller's terminal and makes one if
there is none; all other operations are those of the bare device. The list is
searched by the number of the terminal, an open file refers to its device by
address. A release does nothing, so a device stays.

The search is under `scull_c_lock` and a transfer under the device's own lock.
The trim of an open for writing is under neither, nor is the loading of the
geometry or an `ioctl`. So what a call does to shared data is an interval here,
entered in one step and left in another, with its effect at the end. Where two
intervals touch the same data and no lock keeps them apart, that is a race, and
the run stops there.

As long as it does not, the system is a bare device to the processes of one
terminal: `views` leaves out what the other terminals do, except that an
`ioctl` changes the parameters of the module for all of them.
-/

namespace LearningLinux.ScullMem

open LearningLinux.Lib
open LearningLinux.Scull (Params IoctlCall Cmd scullIoctl)

variable {β ι : Type*}

/-- `struct scull_listitem`, at its address. -/
structure ListItem (β : Type*) where
  addr : Nat
  key : Nat
  device : ScullDev β

/-- After `memset`. -/
def ScullDev.cleared : ScullDev β := ⟨[], 0, 0, 0⟩

/-- The device of the key and the list it is in, unless a new item is needed
and `kmalloc` returns `NULL`. -/
def scullCLookforDevice (p : Params) (key : Nat) (alloc : Option Nat)
    (list : List (ListItem β)) : Option (Nat × List (ListItem β)) :=
  match list.find? fun lptr => lptr.key == key with
  | some lptr => some (lptr.addr, list)
  | none =>
      alloc.map fun addr =>
        (addr, ⟨addr, key, scullTrim p ScullDev.cleared⟩ :: list)

/-- The lock is not taken: the wait for it is interrupted. -/
def Transfer.signal : Transfer β → Bool
  | .read c => c.signal
  | .write c => c.signal

/-- Where a process is. In `looking` it has `scull_c_lock`, in `inside` the
lock of its device; `opened` is an open for writing that is to trim, `loaded` a
transfer that is to take the lock. -/
inductive Phase where
  | idle
  | looking (key : Nat) (wronly : Bool)
  | opened
  | trimming
  | loading
  | loaded (g : Int × Int)
  | inside (g : Int × Int)
  | setting
deriving DecidableEq

/-- What must not overlap: two searches; accesses to one device of which one
is a trim, and two transfers; an `ioctl` and whatever uses the parameters. -/
def Phase.conflicts (same : Bool) : Phase → Phase → Bool
  | .looking _ _, .looking _ _ => true
  | .inside _, .inside _ => same
  | .trimming, .trimming => same
  | .trimming, .loading => same
  | .loading, .trimming => same
  | .trimming, .inside _ => same
  | .inside _, .trimming => same
  | .setting, .setting => true
  | .setting, .looking _ _ => true
  | .looking _ _, .setting => true
  | .setting, .trimming => true
  | .trimming, .setting => true
  | _, _ => false

/-- The geometry that a transfer has loaded. -/
def Phase.geometry : Phase → Option (Int × Int)
  | .loaded g => some g
  | .inside g => some g
  | _ => none

/-- What a transfer starts from: an interrupted one has not got the lock. -/
def Phase.transfers (signal : Bool) : Phase → Option (Int × Int)
  | .loaded g => if signal then some g else none
  | .inside g => if signal then none else some g
  | _ => none

def Phase.isLooking : Phase → Bool
  | .looking _ _ => true
  | _ => false

def Phase.isInside : Phase → Bool
  | .inside _ => true
  | _ => false

/-- The end of a run. -/
inductive Stop where
  | fault (e : Fault)
  | race
deriving DecidableEq

/-- `tty` is the terminal from which a process has opened its file; the code
keeps only the address of the device. -/
structure Terminals (β ι : Type*) where
  scull_c_list : List (ListItem β)
  params : Params
  private_data : ι → Option Nat
  tty : ι → Option Nat
  phase : ι → Phase
  stop : Option Stop

inductive TermAct (β ι : Type*) where
  | opens (t : ι) (tty : Option Nat) (wronly : Bool)
  | looked (t : ι) (alloc : Option Nat)
  | trims (t : ι)
  | trimmed (t : ι)
  | loads (t : ι)
  | loaded (t : ι)
  | locks (t : ι)
  | transferred (t : ι) (pos : Nat) (c : Transfer β)
  | sets (t : ι)
  | set (t : ι) (cmd : Cmd) (c : IoctlCall)
  | releases (t : ι)

def Terminals.init (p : Params) : Terminals β ι :=
  ⟨[], p, fun _ => none, fun _ => none, fun _ => .idle, none⟩

/-- The device at an address. -/
def deviceAt (list : List (ListItem β)) (addr : Nat) : Option (ScullDev β) :=
  (list.find? fun lptr => lptr.addr == addr).map ListItem.device

/-- The device of a terminal. -/
def deviceOf (list : List (ListItem β)) (key : Nat) : Option (ScullDev β) :=
  (list.find? fun lptr => lptr.key == key).map ListItem.device

def ListItem.put (addr : Nat) (dev : ScullDev β) (lptr : ListItem β) :
    ListItem β :=
  if lptr.addr = addr then { lptr with device := dev } else lptr

/-- The device at an address becomes `dev`. -/
def putAt (list : List (ListItem β)) (addr : Nat) (dev : ScullDev β) :
    List (ListItem β) :=
  list.map (ListItem.put addr dev)

/-- What the file of a process refers to: an address and the device there. -/
def Terminals.file (s : Terminals β ι) (t : ι) : Option (Nat × ScullDev β) :=
  (s.private_data t).bind fun addr =>
    (deviceAt s.scull_c_list addr).map fun dev => (addr, dev)

/-- The run goes on and the process is in this phase. -/
def Terminals.In (s : Terminals β ι) (t : ι) (ph : Phase) : Prop :=
  s.stop = none ∧ s.phase t = ph

instance (s : Terminals β ι) (t : ι) (ph : Phase) : Decidable (s.In t ph) :=
  inferInstanceAs (Decidable (_ ∧ _))

/-- Whether two processes conflict, if the first is in this phase. -/
def Terminals.conflict (s : Terminals β ι) (t u : ι) (ph : Phase) : Bool :=
  ph.conflicts (decide (s.private_data t = s.private_data u)) (s.phase u)

section Step

variable [DecidableEq ι]

def Terminals.at (s : Terminals β ι) (t : ι) (ph : Phase) : Terminals β ι :=
  { s with
    phase := Function.update s.phase t ph }

variable [Fintype ι]

/-- A process begins an access. -/
def Terminals.enter (s : Terminals β ι) (t : ι) (ph : Phase) : Terminals β ι :=
  if ∃ u, u ≠ t ∧ s.conflict t u ph then { s with stop := some .race }
  else s.at t ph

/-- The lock of the device is free. -/
def Terminals.Unlocked (s : Terminals β ι) (t : ι) : Prop :=
  ∀ u, (s.phase u).isInside → s.private_data t ≠ s.private_data u

instance (s : Terminals β ι) (t : ι) : Decidable (s.Unlocked t) :=
  inferInstanceAs (Decidable (∀ _, _ → _))

/-- An open without a terminal, or without memory for a new item, changes
nothing. What `kmalloc` returns is not in use. -/
def Terminals.step (s : Terminals β ι) : TermAct β ι → Option (Terminals β ι)
  | .opens t tty wronly =>
      if s.In t .idle then
        match tty with
        | none => some s
        | some key =>
            if ∀ u, ¬ (s.phase u).isLooking then
              some (s.enter t (.looking key wronly))
            else none
      else none
  | .looked t alloc =>
      match s.phase t with
      | .looking key wronly =>
          if s.stop = none ∧ ∀ lptr ∈ s.scull_c_list, some lptr.addr ≠ alloc then
            match scullCLookforDevice s.params key alloc s.scull_c_list with
            | none => some (s.at t .idle)
            | some (addr, list) =>
                some { s with
                  scull_c_list := list
                  private_data := Function.update s.private_data t (some addr)
                  tty := Function.update s.tty t (some key)
                  phase := Function.update s.phase t
                    (if wronly then .opened else .idle) }
          else none
      | _ => none
  | .trims t => if s.In t .opened then some (s.enter t .trimming) else none
  | .trimmed t =>
      if s.In t .trimming then
        (s.file t).map fun f =>
          { s.at t .idle with
            scull_c_list := putAt s.scull_c_list f.1 (scullTrim s.params f.2) }
      else none
  | .loads t =>
      if s.In t .idle ∧ (s.file t).isSome then some (s.enter t .loading)
      else none
  | .loaded t =>
      if s.In t .loading then
        (s.file t).map fun f => s.at t (.loaded f.2.geometry)
      else none
  | .locks t =>
      match s.phase t with
      | .loaded g =>
          if s.stop = none ∧ s.Unlocked t then some (s.enter t (.inside g))
          else none
      | _ => none
  | .transferred t pos c =>
      match (s.phase t).transfers c.signal, s.file t with
      | some g, some f =>
          if s.stop = none ∧ pos + c.count < 2 ^ 63 then
            match c.section g.1 g.2 f.2 pos with
            | .ok r =>
                some { s.at t .idle with
                  scull_c_list := putAt s.scull_c_list f.1 r.dev }
            | .error e => some { s with stop := some (.fault e) }
          else none
      | _, _ => none
  | .sets t => if s.In t .idle then some (s.enter t .setting) else none
  | .set t cmd c =>
      if s.In t .setting then
        some { s.at t .idle with params := (scullIoctl s.params cmd c).2 }
      else none
  | .releases t =>
      if s.In t .idle then
        some { s with
          private_data := Function.update s.private_data t none
          tty := Function.update s.tty t none }
      else none

end Step

/-! ## What a terminal sees -/

/-- A step, as the processes of terminal `key` see it. -/
def Terminals.view (key : Nat) (s : Terminals β ι) :
    TermAct β ι → Option (Act β ι)
  | .looked t alloc =>
      if (∃ wronly, s.phase t = .looking key wronly) ∧
          deviceOf s.scull_c_list key = none ∧ alloc.isSome then
        some (.opens t true false)
      else none
  | .trimmed t =>
      if s.tty t = some key then some (.opens t true false) else none
  | .loaded t => if s.tty t = some key then some (.load t) else none
  | .transferred t pos c =>
      if s.tty t = some key then some (.locked t pos c) else none
  | .set t cmd c => some (.ioctl t cmd c)
  | _ => none

/-! ## The list -/

section List

variable {list : List (ListItem β)} {lptr lptr' : ListItem β} {key : Nat}

theorem find?_of_nodup {α : Type*} {f : α → Nat} {l : List α} {a : α}
    (h : (l.map f).Nodup) (hmem : a ∈ l) :
    l.find? (fun x => f x == f a) = some a := by
  induction l with
  | nil => cases hmem
  | cons x l ih =>
      rw [List.map_cons, List.nodup_cons] at h
      rw [List.find?_cons]
      rcases List.mem_cons.mp hmem with rfl | hmem
      · simp
      · have hne : f x ≠ f a := fun heq =>
          h.1 (heq ▸ List.mem_map_of_mem hmem)
        rw [beq_eq_false_iff_ne.mpr hne]
        exact ih h.2 hmem

/-- No two items have the same key or the same address. -/
structure Listed (list : List (ListItem β)) : Prop where
  keys : (list.map ListItem.key).Nodup
  addrs : (list.map ListItem.addr).Nodup

theorem Listed.deviceAt (h : Listed list) (hmem : lptr ∈ list) :
    deviceAt list lptr.addr = some lptr.device := by
  rw [ScullMem.deviceAt, find?_of_nodup h.addrs hmem]
  rfl

theorem Listed.deviceOf (h : Listed list) (hmem : lptr ∈ list) :
    deviceOf list lptr.key = some lptr.device := by
  rw [ScullMem.deviceOf, find?_of_nodup h.keys hmem]
  rfl

/-- An address is as good as a key. -/
theorem Listed.addr_eq_iff (h : Listed list) (hmem : lptr ∈ list)
    (hmem' : lptr' ∈ list) :
    lptr.addr = lptr'.addr ↔ lptr.key = lptr'.key := by
  constructor
  · intro heq
    have hfind := find?_of_nodup h.addrs hmem
    rw [heq, find?_of_nodup h.addrs hmem'] at hfind
    rw [Option.some.inj hfind]
  · intro heq
    have hfind := find?_of_nodup h.keys hmem
    rw [heq, find?_of_nodup h.keys hmem'] at hfind
    rw [Option.some.inj hfind]

theorem deviceOf_cons (lptr : ListItem β) (list : List (ListItem β))
    (key : Nat) : deviceOf (lptr :: list) key =
      if lptr.key = key then some lptr.device else deviceOf list key := by
  rw [deviceOf, List.find?_cons]
  by_cases hkey : lptr.key = key
  · rw [if_pos hkey, beq_iff_eq.mpr hkey]
    rfl
  · rw [if_neg hkey, beq_eq_false_iff_ne.mpr hkey]
    rfl

theorem put_addr (addr : Nat) (dev : ScullDev β) (lptr : ListItem β) :
    (lptr.put addr dev).addr = lptr.addr := by
  rw [ListItem.put]
  split <;> rfl

theorem put_key (addr : Nat) (dev : ScullDev β) (lptr : ListItem β) :
    (lptr.put addr dev).key = lptr.key := by
  rw [ListItem.put]
  split <;> rfl

theorem Listed.put (h : Listed list) (addr : Nat) (dev : ScullDev β) :
    Listed (putAt list addr dev) := by
  constructor
  · rw [putAt, List.map_map]
    simpa only [Function.comp_def, put_key] using h.keys
  · rw [putAt, List.map_map]
    simpa only [Function.comp_def, put_addr] using h.addrs

/-- Only the terminal whose device is at that address sees the change. -/
theorem Listed.deviceOf_put (h : Listed list) (hmem : lptr ∈ list)
    (dev : ScullDev β) (key : Nat) :
    ScullMem.deviceOf (putAt list lptr.addr dev) key =
      if lptr.key = key then some dev else ScullMem.deviceOf list key := by
  rw [ScullMem.deviceOf, putAt, List.find?_map, Option.map_map]
  simp only [Function.comp_def, put_key]
  cases hfind : list.find? fun x => x.key == key with
  | none =>
      have hne : lptr.key ≠ key := by
        simpa using List.find?_eq_none.mp hfind lptr hmem
      rw [if_neg hne, ScullMem.deviceOf, hfind]
      rfl
  | some found =>
      have hkey : found.key = key := by simpa using List.find?_some hfind
      have hiff := h.addr_eq_iff (List.mem_of_find?_eq_some hfind) hmem
      rw [ScullMem.deviceOf, hfind, Option.map_some, Option.map_some,
        ListItem.put]
      by_cases heq : lptr.key = key
      · rw [if_pos heq, if_pos (hiff.mpr (hkey.trans heq.symm))]
      · have hne : found.addr ≠ lptr.addr := fun haddr =>
          heq ((hiff.mp haddr).symm.trans hkey)
        rw [if_neg heq, if_neg hne]

/-- Nothing changes if the device is what it was. -/
theorem Listed.put_self (h : Listed list) (hmem : lptr ∈ list) :
    putAt list lptr.addr lptr.device = list := by
  refine (List.map_congr_left fun x hx => ?_).trans (List.map_id list)
  rw [ListItem.put, id]
  split
  · next haddr =>
      have hfind := find?_of_nodup h.addrs hx
      rw [haddr, find?_of_nodup h.addrs hmem] at hfind
      rw [Option.some.inj hfind]
  · rfl

end List

/-! ## What does not overlap -/

theorem Phase.conflicts_comm (same : Bool) (ph ph' : Phase) :
    ph.conflicts same ph' = ph'.conflicts same ph := by
  cases ph <;> cases ph' <;> rfl

/-- In this phase nothing shared is accessed. -/
def Phase.Quiet (ph : Phase) : Prop :=
  ∀ same ph', ph.conflicts same ph' = false

theorem Phase.quiet_idle : Phase.idle.Quiet := fun _ ph => by cases ph <;> rfl

theorem Phase.quiet_opened : Phase.opened.Quiet :=
  fun _ ph => by cases ph <;> rfl

theorem Phase.quiet_loaded (g : Int × Int) : (Phase.loaded g).Quiet :=
  fun _ ph => by cases ph <;> rfl

/-- No two processes are in phases that conflict, unless that has ended the
run. -/
def Terminals.Apart (s : Terminals β ι) : Prop :=
  s.stop = some .race ∨
    ∀ t u, t ≠ u → s.conflict t u (s.phase t) = false

section Apart

variable {s s' : Terminals β ι} {t : ι} {ph : Phase}

theorem Terminals.conflict_comm (s : Terminals β ι) (t u : ι) :
    s.conflict t u (s.phase t) = s.conflict u t (s.phase u) := by
  rw [conflict, conflict, Phase.conflicts_comm]
  simp only [eq_comm]

/-- One process is somewhere else, without a conflict. -/
theorem Terminals.Apart.move (h : s.Apart) (hstop : s.stop = none)
    (hphase : ∀ u, u ≠ t → s'.phase u = s.phase u)
    (hfile : ∀ u, u ≠ t → s'.private_data u = s.private_data u)
    (hnew : ∀ u, u ≠ t → s'.conflict t u (s'.phase t) = false) :
    s'.Apart := by
  have hold := h.resolve_left (by rw [hstop]; nofun)
  refine .inr fun u v huv => ?_
  by_cases hu : u = t
  · subst hu
    exact hnew v (Ne.symm huv)
  · by_cases hv : v = t
    · subst hv
      rw [s'.conflict_comm]
      exact hnew u hu
    · have hsame := hold u v huv
      rw [conflict] at hsame ⊢
      rw [hphase u hu, hphase v hv, hfile u hu, hfile v hv]
      exact hsame

theorem Terminals.Apart.stopped (e : Fault) (h : s.Apart)
    (hstop : s.stop = none) : { s with stop := some (.fault e) }.Apart :=
  .inr (h.resolve_left (by rw [hstop]; nofun))

variable [DecidableEq ι]

/-- A process that has left its access conflicts with none. -/
theorem Terminals.Apart.leave (h : s.Apart) (hstop : s.stop = none)
    (hphase : s'.phase = Function.update s.phase t ph) (hph : ph.Quiet)
    (hfile : ∀ u, u ≠ t → s'.private_data u = s.private_data u) :
    s'.Apart := by
  refine h.move hstop (fun u hu => ?_) hfile fun u hu => ?_
  · rw [hphase, Function.update_of_ne hu]
  · rw [conflict, hphase, Function.update_self]
    exact hph _ _

variable [Fintype ι]

theorem Terminals.enter_cases (s : Terminals β ι) (t : ι) (ph : Phase) :
    s.enter t ph = { s with stop := some .race } ∨
      s.enter t ph = s.at t ph ∧
        ∀ u, u ≠ t → s.conflict t u ph = false := by
  rw [enter]
  split
  · exact .inl rfl
  · next hno =>
      refine .inr ⟨rfl, fun u hu => Bool.eq_false_iff.mpr fun hc => ?_⟩
      exact hno ⟨u, hu, hc⟩

theorem Terminals.Apart.enter (h : s.Apart) (hstop : s.stop = none) :
    (s.enter t ph).Apart := by
  rcases s.enter_cases t ph with heq | ⟨heq, hno⟩
  · rw [heq]
    exact .inl rfl
  · rw [heq]
    refine h.move (t := t) hstop (fun u hu => Function.update_of_ne hu ..)
      (fun _ _ => rfl) fun u hu => ?_
    have hnew := hno u hu
    rw [conflict] at hnew ⊢
    show Phase.conflicts _ (Function.update s.phase t ph t)
      (Function.update s.phase t ph u) = false
    rw [Function.update_self, Function.update_of_ne hu]
    exact hnew

end Apart

/-! ## What the list and the files keep to -/

/-- An open file refers to the device of the terminal it was opened from. -/
structure Terminals.Inv (s : Terminals β ι) : Prop where
  listed : Listed s.scull_c_list
  files : ∀ t addr, s.private_data t = some addr →
    ∃ lptr ∈ s.scull_c_list, lptr.addr = addr ∧ s.tty t = some lptr.key
  closed : ∀ t, s.private_data t = none → s.tty t = none

section Inv

variable {s : Terminals β ι} {key : Nat} {t : ι}

theorem Terminals.inv_init (p : Params) :
    (Terminals.init p : Terminals β ι).Inv :=
  ⟨⟨List.nodup_nil, List.nodup_nil⟩, (by simp [init]), fun _ _ => rfl⟩

/-- The phases and the parameters do not matter. -/
theorem Terminals.Inv.congr (h : s.Inv) {s' : Terminals β ι}
    (hlist : s'.scull_c_list = s.scull_c_list)
    (hfile : s'.private_data = s.private_data) (htty : s'.tty = s.tty) :
    s'.Inv := by
  refine ⟨hlist ▸ h.listed, fun t addr haddr => ?_, fun t ht => ?_⟩
  · rw [hfile] at haddr
    rw [hlist, htty]
    exact h.files t addr haddr
  · rw [hfile] at ht
    rw [htty]
    exact h.closed t ht

theorem Terminals.Inv.file (h : s.Inv) {f : Nat × ScullDev β}
    (hf : s.file t = some f) :
    ∃ lptr ∈ s.scull_c_list, f = (lptr.addr, lptr.device) ∧
      s.tty t = some lptr.key := by
  obtain ⟨addr, haddr, hdev⟩ := Option.bind_eq_some_iff.mp hf
  obtain ⟨lptr, hmem, rfl, htty⟩ := h.files t addr haddr
  rw [h.listed.deviceAt hmem] at hdev
  exact ⟨lptr, hmem, (Option.some.inj hdev).symm, htty⟩

/-- A transfer or a trim, with the device it leaves. -/
theorem Terminals.Inv.put (h : s.Inv) (addr : Nat) (dev : ScullDev β)
    (phase : ι → Phase) :
    { s with
      scull_c_list := putAt s.scull_c_list addr dev
      phase := phase }.Inv := by
  refine ⟨h.listed.put addr dev, fun t a ha => ?_, h.closed⟩
  obtain ⟨lptr, hmem, haddr, htty⟩ := h.files t a ha
  exact ⟨lptr.put addr dev, List.mem_map_of_mem hmem,
    (put_addr addr dev lptr).trans haddr,
    htty.trans (congrArg some (put_key addr dev lptr).symm)⟩

theorem deviceOf_eq_none {list : List (ListItem β)} :
    deviceOf list key = none ↔ key ∉ list.map ListItem.key := by
  rw [deviceOf, Option.map_eq_none_iff, List.find?_eq_none]
  simp only [List.mem_map, not_exists, not_and, beq_iff_eq]

/-- The item that an open finds or makes. -/
theorem scullCLookforDevice_cases {p : Params} {alloc : Option Nat}
    {addr : Nat} {l list : List (ListItem β)}
    (h : scullCLookforDevice p key alloc l = some (addr, list)) :
    (∃ lptr ∈ l, lptr.addr = addr ∧ lptr.key = key ∧ list = l) ∨
      (deviceOf l key = none ∧ alloc = some addr ∧
        list = ⟨addr, key, scullTrim p ScullDev.cleared⟩ :: l) := by
  rw [scullCLookforDevice] at h
  cases hfind : l.find? fun lptr => lptr.key == key with
  | some lptr =>
      rw [hfind] at h
      cases h
      have hkey : lptr.key = key := by simpa using List.find?_some hfind
      exact .inl ⟨lptr, List.mem_of_find?_eq_some hfind, rfl, hkey, rfl⟩
  | none =>
      rw [hfind] at h
      obtain ⟨a, rfl, heq⟩ := Option.map_eq_some_iff.mp h
      cases heq
      exact .inr ⟨by rw [deviceOf, hfind]; rfl, rfl, rfl⟩

theorem lookfor_eq_none {p : Params} {alloc : Option Nat}
    {l : List (ListItem β)} : scullCLookforDevice p key alloc l = none ↔
      deviceOf l key = none ∧ alloc = none := by
  rw [scullCLookforDevice, deviceOf]
  cases l.find? fun lptr => lptr.key == key with
  | some lptr => simp
  | none => simp

theorem Terminals.Inv.looked (h : s.Inv) {alloc : Option Nat} {addr : Nat}
    {list : List (ListItem β)}
    (hfresh : ∀ lptr ∈ s.scull_c_list, some lptr.addr ≠ alloc)
    (hlook : scullCLookforDevice s.params key alloc s.scull_c_list =
      some (addr, list)) :
    Listed list ∧ (∃ lptr ∈ list, lptr.addr = addr ∧ lptr.key = key) ∧
      ∀ lptr ∈ s.scull_c_list, lptr ∈ list := by
  rcases scullCLookforDevice_cases hlook with
    ⟨lptr, hmem, haddr, hkey, rfl⟩ | ⟨hnone, rfl, rfl⟩
  · exact ⟨h.listed, ⟨lptr, hmem, haddr, hkey⟩, fun _ hmem => hmem⟩
  · have hnew : addr ∉ s.scull_c_list.map ListItem.addr := fun hmem => by
      obtain ⟨lptr, hlptr, heq⟩ := List.mem_map.mp hmem
      exact hfresh lptr hlptr (congrArg some heq)
    exact ⟨⟨List.nodup_cons.mpr ⟨deviceOf_eq_none.mp hnone, h.listed.keys⟩,
      List.nodup_cons.mpr ⟨hnew, h.listed.addrs⟩⟩,
      ⟨_, List.mem_cons_self, rfl, rfl⟩,
      fun _ hmem => List.mem_cons_of_mem _ hmem⟩

variable [DecidableEq ι]

theorem Terminals.Inv.opens (h : s.Inv) {alloc : Option Nat} {addr : Nat}
    {list : List (ListItem β)} (phase : ι → Phase)
    (hfresh : ∀ lptr ∈ s.scull_c_list, some lptr.addr ≠ alloc)
    (hlook : scullCLookforDevice s.params key alloc s.scull_c_list =
      some (addr, list)) :
    { s with
      scull_c_list := list
      private_data := Function.update s.private_data t (some addr)
      tty := Function.update s.tty t (some key)
      phase := phase }.Inv := by
  obtain ⟨hlisted, hitem, hmem⟩ := h.looked hfresh hlook
  refine ⟨hlisted, fun u a hu => ?_, fun u hu => ?_⟩
  · dsimp only at hu ⊢
    by_cases htu : u = t
    · subst htu
      obtain ⟨lptr, hlptr, haddr, hkey⟩ := hitem
      rw [Function.update_self] at hu
      rw [Function.update_self, ← hkey]
      exact ⟨lptr, hlptr, haddr.trans (Option.some.inj hu), rfl⟩
    · rw [Function.update_of_ne htu] at hu
      rw [Function.update_of_ne htu]
      obtain ⟨lptr, hlptr, haddr, htty⟩ := h.files u a hu
      exact ⟨lptr, hmem lptr hlptr, haddr, htty⟩
  · dsimp only at hu ⊢
    by_cases htu : u = t
    · subst htu
      rw [Function.update_self] at hu
      cases hu
    · rw [Function.update_of_ne htu] at hu
      rw [Function.update_of_ne htu]
      exact h.closed u hu

theorem Terminals.Inv.releases (h : s.Inv) (t : ι) :
    { s with
      private_data := Function.update s.private_data t none
      tty := Function.update s.tty t none }.Inv := by
  refine ⟨h.listed, fun u a hu => ?_, fun u hu => ?_⟩
  · dsimp only at hu ⊢
    by_cases htu : u = t
    · subst htu
      rw [Function.update_self] at hu
      cases hu
    · rw [Function.update_of_ne htu] at hu ⊢
      exact h.files u a hu
  · dsimp only at hu ⊢
    by_cases htu : u = t
    · rw [htu, Function.update_self]
    · rw [Function.update_of_ne htu] at hu ⊢
      exact h.closed u hu

end Inv

/-! ## One terminal, one device -/

/-- The bare device `b` is what the processes of terminal `key` have. -/
structure Shows (key : Nat) (s : Terminals β ι) (b : Processes β ι) :
    Prop where
  inv : s.Inv
  apart : s.Apart
  params : b.params = s.params
  dev : ∀ dev, deviceOf s.scull_c_list key = some dev → b.dev = dev
  loaded : ∀ t, b.loaded t =
    if s.tty t = some key then (s.phase t).geometry else none
  running : s.stop = none → b.fault = none

theorem exec_one {σ α : Type*} {step : σ → α → Option σ} {x y : σ} {a : α}
    (h : step x a = some y) : exec step x [a] = some y :=
  exec_cons.mpr ⟨y, h, rfl⟩

section Steps

variable {s s' : Terminals β ι} {key : Nat} {b : Processes β ι} {t : ι}

theorem Shows.loaded_none (h : Shows key s b)
    (hnone : (s.phase t).geometry = none) : b.loaded t = none := by
  rw [h.loaded, hnone, ite_self]

variable [DecidableEq ι]

/-- A step that terminal `key` does not see. -/
theorem Shows.unseen {a : TermAct β ι} (hview : s.view key a = none)
    (h : Shows key s' b) :
    ∃ b', exec Processes.step b (s.view key a).toList = some b' ∧
      Shows key s' b' :=
  ⟨b, by rw [hview]; rfl, h⟩

/-- Another phase with the same geometry. -/
theorem Shows.loaded_at (h : Shows key s b) {ph : Phase}
    (hgeo : ph.geometry = (s.phase t).geometry) (u : ι) :
    b.loaded u = if s.tty u = some key then
      (Function.update s.phase t ph u).geometry else none := by
  by_cases hu : u = t
  · rw [hu, Function.update_self, hgeo, h.loaded]
  · rw [Function.update_of_ne hu, h.loaded]

/-- A process opens or closes a file: what it had loaded is nothing, and
stays so. -/
theorem Shows.loaded_opened (h : Shows key s b) {ph : Phase}
    (hold : (s.phase t).geometry = none) (hgeo : ph.geometry = none)
    (tty : Option Nat) (u : ι) :
    b.loaded u = if Function.update s.tty t tty u = some key then
      (Function.update s.phase t ph u).geometry else none := by
  by_cases hu : u = t
  · rw [hu, Function.update_self, Function.update_self, hgeo, ite_self,
      h.loaded_none hold]
  · rw [Function.update_of_ne hu, Function.update_of_ne hu, h.loaded]

/-- A process leaves an access without an effect. -/
theorem Shows.leave (h : Shows key s b) (hstop : s.stop = none) {ph : Phase}
    (hph : ph.Quiet) (hgeo : ph.geometry = (s.phase t).geometry) :
    Shows key (s.at t ph) b :=
  ⟨h.inv.congr rfl rfl rfl, h.apart.leave hstop rfl hph fun _ _ => rfl,
    h.params, h.dev, h.loaded_at hgeo, h.running⟩

/-- One process of another terminal, or of this one, has changed the device
that its file refers to. -/
theorem Shows.put (h : Shows key s b) (hstop : s.stop = none)
    {lptr : ListItem β} (hmem : lptr ∈ s.scull_c_list)
    (htty : s.tty t = some lptr.key) (dev : ScullDev β) {ph : Phase}
    (hph : ph.Quiet) :
    Shows key
      { s.at t ph with
        scull_c_list := putAt s.scull_c_list lptr.addr dev }
      (if lptr.key = key then
        { b with dev := dev, loaded := Function.update b.loaded t ph.geometry }
      else b) := by
  refine ⟨h.inv.put _ _ _, h.apart.leave hstop rfl hph fun _ _ => rfl, ?_,
    fun d hd => ?_, fun u => ?_, fun hf => ?_⟩
  · split <;> exact h.params
  · dsimp only at hd
    rw [h.inv.listed.deviceOf_put hmem] at hd
    split at hd
    · next hkey =>
        rw [if_pos hkey]
        exact Option.some.inj hd
    · next hkey =>
        rw [if_neg hkey]
        exact h.dev d hd
  · show _ = if s.tty u = some key then
      (Function.update s.phase t ph u).geometry else none
    by_cases hkey : lptr.key = key
    · rw [if_pos hkey]
      dsimp only
      by_cases hu : u = t
      · rw [hu, Function.update_self, Function.update_self, htty,
          if_pos (congrArg some hkey)]
      · rw [Function.update_of_ne hu, Function.update_of_ne hu, h.loaded]
    · rw [if_neg hkey, h.loaded]
      by_cases hu : u = t
      · have hne : ¬ s.tty t = some key := fun heq =>
          hkey (Option.some.inj (htty.symm.trans heq))
        rw [hu, if_neg hne, if_neg hne]
      · rw [Function.update_of_ne hu]
  · split <;> exact h.running hf

variable [Fintype ι]

/-- A process begins an access, which changes nothing yet. -/
theorem Shows.enter (h : Shows key s b) (hstop : s.stop = none) {ph : Phase}
    (hgeo : ph.geometry = (s.phase t).geometry) :
    Shows key (s.enter t ph) b := by
  have hapart : (s.enter t ph).Apart := h.apart.enter hstop
  rcases s.enter_cases t ph with heq | ⟨heq, -⟩
  · rw [heq] at hapart ⊢
    exact ⟨h.inv.congr rfl rfl rfl, hapart, h.params, h.dev, h.loaded, nofun⟩
  · rw [heq] at hapart ⊢
    exact ⟨h.inv.congr rfl rfl rfl, hapart, h.params, h.dev, h.loaded_at hgeo,
      h.running⟩

theorem Shows.opens (h : Shows key s b) {tty : Option Nat} {wronly : Bool}
    (hstep : s.step (.opens t tty wronly) = some s') : Shows key s' b := by
  obtain ⟨⟨hstop, hidle⟩, hstep⟩ := Option.ite_none_right_eq_some.mp hstep
  cases tty with
  | none =>
      cases hstep
      exact h
  | some k =>
      obtain ⟨-, hstep⟩ := Option.ite_none_right_eq_some.mp hstep
      cases hstep
      exact h.enter hstop (by rw [hidle]; rfl)

/-- The end of a search. -/
theorem Terminals.step_looked {alloc : Option Nat}
    (h : s.step (.looked t alloc) = some s') :
    ∃ k wronly, s.phase t = .looking k wronly ∧ s.stop = none ∧
      (∀ lptr ∈ s.scull_c_list, some lptr.addr ≠ alloc) ∧
      ((deviceOf s.scull_c_list k = none ∧ alloc = none ∧ s' = s.at t .idle) ∨
      ∃ addr list, scullCLookforDevice s.params k alloc s.scull_c_list =
          some (addr, list) ∧
        s' = { s with
          scull_c_list := list
          private_data := Function.update s.private_data t (some addr)
          tty := Function.update s.tty t (some k)
          phase := Function.update s.phase t
            (if wronly then .opened else .idle) }) := by
  rw [step] at h
  split at h
  · next k wronly hphase =>
      obtain ⟨⟨hstop, hfresh⟩, h⟩ := Option.ite_none_right_eq_some.mp h
      refine ⟨k, wronly, hphase, hstop, hfresh, ?_⟩
      split at h
      · next hnone =>
          obtain ⟨hdev, halloc⟩ := lookfor_eq_none.mp hnone
          exact .inl ⟨hdev, halloc, (Option.some.inj h).symm⟩
      · next addr list hlook =>
          exact .inr ⟨addr, list, hlook, (Option.some.inj h).symm⟩
  · cases h

/-- A terminal's first open makes a device, which is like trimming one. -/
theorem Shows.looked (h : Shows key s b) {alloc : Option Nat}
    (hstep : s.step (.looked t alloc) = some s') :
    ∃ b', exec Processes.step b (s.view key (.looked t alloc)).toList =
      some b' ∧ Shows key s' b' := by
  obtain ⟨k, wronly, hphase, hstop, hfresh, hend⟩ :=
    Terminals.step_looked hstep
  have hgeo : (s.phase t).geometry = none := by rw [hphase]; rfl
  rcases hend with ⟨-, halloc, rfl⟩ | ⟨addr, list, hlook, rfl⟩
  · refine Shows.unseen ?_ (h.leave hstop Phase.quiet_idle hgeo.symm)
    rw [Terminals.view, halloc, if_neg (by simp)]
  · have hquiet : (if wronly then Phase.opened else .idle).Quiet := by
      split
      · exact Phase.quiet_opened
      · exact Phase.quiet_idle
    have hnew : (if wronly then Phase.opened else .idle).geometry = none := by
      split <;> rfl
    have hinv := h.inv.opens (t := t) (Function.update s.phase t
      (if wronly then .opened else .idle)) hfresh hlook
    have hapart (s' : Terminals β ι) (hp) (hf) : s'.Apart :=
      h.apart.leave (t := t) hstop hp hquiet hf
    have hloaded := h.loaded_opened hgeo hnew (some k)
    rcases scullCLookforDevice_cases hlook with
      ⟨lptr, hmem, -, rfl, rfl⟩ | ⟨hnone, rfl, rfl⟩
    · -- the device is there
      refine Shows.unseen ?_ ⟨hinv, hapart _ rfl fun u hu =>
        Function.update_of_ne hu .., h.params, h.dev, hloaded, h.running⟩
      rw [Terminals.view, if_neg fun hc => ?_]
      obtain ⟨⟨w, hw⟩, hnone, -⟩ := hc
      rw [hphase] at hw
      cases hw
      rw [h.inv.listed.deviceOf hmem] at hnone
      cases hnone
    · by_cases hk : k = key
      · subst hk
        rw [Terminals.view, if_pos ⟨⟨wronly, hphase⟩, hnone, rfl⟩]
        refine ⟨{ b with
          dev := (scullOpen b.params b.dev true false).2 }, exec_one
          (if_pos ⟨h.running hstop, h.loaded_none hgeo⟩),
          hinv, hapart _ rfl fun u hu => Function.update_of_ne hu ..,
          h.params, fun dev hdev => ?_, hloaded, h.running⟩
        rw [deviceOf_cons, if_pos rfl] at hdev
        rw [← Option.some.inj hdev, h.params]
        rfl
      · refine Shows.unseen ?_ ⟨hinv, hapart _ rfl fun u hu =>
          Function.update_of_ne hu .., h.params, fun dev hdev => ?_, hloaded,
          h.running⟩
        · rw [Terminals.view, if_neg fun hc => ?_]
          obtain ⟨⟨w, hw⟩, -⟩ := hc
          rw [hphase] at hw
          cases hw
          exact hk rfl
        · rw [deviceOf_cons, if_neg hk] at hdev
          exact h.dev dev hdev

theorem Shows.trimmed (h : Shows key s b)
    (hstep : s.step (.trimmed t) = some s') :
    ∃ b', exec Processes.step b (s.view key (.trimmed t)).toList = some b' ∧
      Shows key s' b' := by
  obtain ⟨⟨hstop, htrim⟩, hstep⟩ := Option.ite_none_right_eq_some.mp hstep
  obtain ⟨f, hf, rfl⟩ := Option.map_eq_some_iff.mp hstep
  obtain ⟨lptr, hmem, rfl, htty⟩ := h.inv.file hf
  have hloaded : b.loaded t = none := h.loaded_none (by rw [htrim]; rfl)
  have hput := h.put hstop hmem htty (scullTrim s.params lptr.device)
    Phase.quiet_idle
  refine ⟨_, ?_, hput⟩
  rw [Terminals.view, htty]
  by_cases hkey : lptr.key = key
  · rw [if_pos (congrArg some hkey), if_pos hkey]
    refine exec_one ((if_pos ⟨h.running hstop, hloaded⟩).trans ?_)
    show some _ = some { b with
      dev := scullTrim s.params lptr.device
      loaded := Function.update b.loaded t none }
    rw [← hloaded, Function.update_eq_self, ← h.params]
    rfl
  · rw [if_neg (fun heq => hkey (Option.some.inj heq)), if_neg hkey]
    rfl

theorem Shows.load (h : Shows key s b) (hstep : s.step (.loaded t) = some s') :
    ∃ b', exec Processes.step b (s.view key (.loaded t)).toList = some b' ∧
      Shows key s' b' := by
  obtain ⟨⟨hstop, hload⟩, hstep⟩ := Option.ite_none_right_eq_some.mp hstep
  obtain ⟨f, hf, rfl⟩ := Option.map_eq_some_iff.mp hstep
  obtain ⟨lptr, hmem, rfl, htty⟩ := h.inv.file hf
  have hput := h.put hstop hmem htty lptr.device
    (Phase.quiet_loaded lptr.device.geometry)
  rw [h.inv.listed.put_self hmem] at hput
  refine ⟨_, ?_, hput⟩
  rw [Terminals.view, htty]
  by_cases hkey : lptr.key = key
  · have hdev := h.dev _ (hkey ▸ h.inv.listed.deviceOf hmem)
    rw [if_pos (congrArg some hkey), if_pos hkey, ← hdev]
    exact exec_one (if_pos ⟨h.running hstop,
      h.loaded_none (by rw [hload]; rfl)⟩)
  · rw [if_neg (fun heq => hkey (Option.some.inj heq)), if_neg hkey]
    rfl

theorem Shows.locks (h : Shows key s b)
    (hstep : s.step (.locks t) = some s') : Shows key s' b := by
  rw [Terminals.step] at hstep
  split at hstep
  · next g hphase =>
      obtain ⟨⟨hstop, -⟩, hstep⟩ := Option.ite_none_right_eq_some.mp hstep
      cases hstep
      exact h.enter hstop (by rw [hphase]; rfl)
  · cases hstep

theorem Phase.geometry_of_transfers {ph : Phase} {signal : Bool}
    {g : Int × Int} (h : ph.transfers signal = some g) :
    ph.geometry = some g := by
  cases ph with
  | loaded g' =>
      rw [transfers] at h
      split at h
      · exact h
      · cases h
  | inside g' =>
      rw [transfers] at h
      split at h
      · cases h
      · exact h
  | _ => cases h

/-- A transfer ends, with a device or with a fault. -/
theorem Terminals.step_transferred {pos : Nat} {c : Transfer β}
    (h : s.step (.transferred t pos c) = some s') :
    ∃ g f, (s.phase t).geometry = some g ∧ s.file t = some f ∧
      s.stop = none ∧ pos + c.count < 2 ^ 63 ∧
      ((∃ r, c.section g.1 g.2 f.2 pos = .ok r ∧
        s' = { s.at t .idle with
          scull_c_list := putAt s.scull_c_list f.1 r.dev }) ∨
      ∃ e, c.section g.1 g.2 f.2 pos = .error e ∧
        s' = { s with stop := some (.fault e) }) := by
  rw [step] at h
  cases hg : (s.phase t).transfers c.signal with
  | none => simp only [hg] at h; cases h
  | some g =>
      cases hf : s.file t with
      | none => simp only [hg, hf] at h; cases h
      | some f =>
          simp only [hg, hf] at h
          obtain ⟨⟨hstop, hpos⟩, h⟩ := Option.ite_none_right_eq_some.mp h
          refine ⟨g, f, Phase.geometry_of_transfers hg, rfl, hstop, hpos, ?_⟩
          cases hr : c.section g.1 g.2 f.2 pos with
          | ok r =>
              rw [hr] at h
              exact .inl ⟨r, rfl, (Option.some.inj h).symm⟩
          | error e =>
              rw [hr] at h
              exact .inr ⟨e, rfl, (Option.some.inj h).symm⟩

section Bare

variable {g : Int × Int} {pos : Nat} {c : Transfer β}

omit [Fintype ι] in
theorem Processes.step_returns (hfault : b.fault = none)
    (hg : b.loaded t = some g) (hpos : pos + c.count < 2 ^ 63)
    {r : Section β} (hr : c.section g.1 g.2 b.dev pos = .ok r) :
    b.step (.locked t pos c) = some { b with
      dev := r.dev
      loaded := Function.update b.loaded t none } := by
  rw [step, hg]
  dsimp only
  rw [if_pos ⟨hfault, hpos⟩, hr, hfault]

omit [Fintype ι] in
theorem Processes.step_faults (hfault : b.fault = none)
    (hg : b.loaded t = some g) (hpos : pos + c.count < 2 ^ 63)
    {e : Fault} (he : c.section g.1 g.2 b.dev pos = .error e) :
    b.step (.locked t pos c) = some { b with fault := some e } := by
  rw [step, hg]
  dsimp only
  rw [if_pos ⟨hfault, hpos⟩, he]

end Bare

theorem Shows.transferred (h : Shows key s b) {pos : Nat} {c : Transfer β}
    (hstep : s.step (.transferred t pos c) = some s') :
    ∃ b', exec Processes.step b (s.view key (.transferred t pos c)).toList =
      some b' ∧ Shows key s' b' := by
  obtain ⟨g, f, hg, hf, hstop, hpos, hend⟩ := Terminals.step_transferred hstep
  obtain ⟨lptr, hmem, rfl, htty⟩ := h.inv.file hf
  have hbare : lptr.key = key → b.dev = lptr.device ∧ b.loaded t = some g := by
    intro hkey
    rw [h.loaded, htty, if_pos (congrArg some hkey), hg]
    exact ⟨h.dev _ (hkey ▸ h.inv.listed.deviceOf hmem), rfl⟩
  rw [Terminals.view, htty]
  rcases hend with ⟨r, hr, rfl⟩ | ⟨e, he, rfl⟩
  · refine ⟨_, ?_, h.put hstop hmem htty r.dev Phase.quiet_idle⟩
    by_cases hkey : lptr.key = key
    · obtain ⟨hdev, hloaded⟩ := hbare hkey
      rw [if_pos (congrArg some hkey), if_pos hkey]
      exact exec_one (Processes.step_returns (h.running hstop) hloaded hpos
        (hdev ▸ hr))
    · rw [if_neg (fun heq => hkey (Option.some.inj heq)), if_neg hkey]
      rfl
  · have hinv : Terminals.Inv { s with stop := some (.fault e) } :=
      h.inv.congr rfl rfl rfl
    have hapart := h.apart.stopped e hstop
    by_cases hkey : lptr.key = key
    · obtain ⟨hdev, hloaded⟩ := hbare hkey
      rw [if_pos (congrArg some hkey)]
      exact ⟨{ b with fault := some e }, exec_one (Processes.step_faults
        (h.running hstop) hloaded hpos (hdev ▸ he)),
        ⟨hinv, hapart, h.params, h.dev, h.loaded, nofun⟩⟩
    · rw [if_neg fun heq => hkey (Option.some.inj heq)]
      exact ⟨b, rfl, ⟨hinv, hapart, h.params, h.dev, h.loaded, nofun⟩⟩

theorem Shows.set (h : Shows key s b) {cmd : Cmd} {c : IoctlCall}
    (hstep : s.step (.set t cmd c) = some s') :
    ∃ b', exec Processes.step b (s.view key (.set t cmd c)).toList =
      some b' ∧ Shows key s' b' := by
  obtain ⟨⟨hstop, hset⟩, hstep⟩ := Option.ite_none_right_eq_some.mp hstep
  cases hstep
  have hgeo : (s.phase t).geometry = none := by rw [hset]; rfl
  refine ⟨{ b with params := (scullIoctl b.params cmd c).2 }, exec_one
    (if_pos ⟨h.running hstop, h.loaded_none hgeo⟩),
    h.inv.congr rfl rfl rfl, h.apart.leave hstop rfl Phase.quiet_idle
    fun _ _ => rfl, ?_, h.dev, h.loaded_at hgeo.symm, h.running⟩
  dsimp only
  rw [h.params]

theorem Shows.releases (h : Shows key s b)
    (hstep : s.step (.releases t) = some s') : Shows key s' b := by
  obtain ⟨⟨hstop, hidle⟩, hstep⟩ := Option.ite_none_right_eq_some.mp hstep
  cases hstep
  have hphase : s.phase = Function.update s.phase t .idle := by
    rw [← hidle, Function.update_eq_self]
  have hgeo : (s.phase t).geometry = none := by rw [hidle]; rfl
  refine ⟨h.inv.releases t, h.apart.leave hstop hphase Phase.quiet_idle
    fun u hu => Function.update_of_ne hu .., h.params, h.dev, fun u => ?_,
    h.running⟩
  dsimp only
  rw [hphase]
  exact h.loaded_opened hgeo rfl none u

theorem Shows.step (h : Shows key s b) (a : TermAct β ι)
    (hstep : s.step a = some s') :
    ∃ b', exec Processes.step b (s.view key a).toList = some b' ∧
      Shows key s' b' := by
  cases a with
  | opens t tty wronly => exact Shows.unseen rfl (h.opens hstep)
  | looked t alloc => exact h.looked hstep
  | trims t =>
      obtain ⟨⟨hstop, hphase⟩, hs⟩ := Option.ite_none_right_eq_some.mp hstep
      cases hs
      exact Shows.unseen rfl (h.enter hstop (by rw [hphase]; rfl))
  | trimmed t => exact h.trimmed hstep
  | loads t =>
      obtain ⟨⟨⟨hstop, hphase⟩, -⟩, hs⟩ :=
        Option.ite_none_right_eq_some.mp hstep
      cases hs
      exact Shows.unseen rfl (h.enter hstop (by rw [hphase]; rfl))
  | loaded t => exact h.load hstep
  | locks t => exact Shows.unseen rfl (h.locks hstep)
  | transferred t pos c => exact h.transferred hstep
  | sets t =>
      obtain ⟨⟨hstop, hphase⟩, hs⟩ := Option.ite_none_right_eq_some.mp hstep
      cases hs
      exact Shows.unseen rfl (h.enter hstop (by rw [hphase]; rfl))
  | set t cmd c => exact h.set hstep
  | releases t => exact Shows.unseen rfl (h.releases hstep)

end Steps

/-- A second open for writing from one terminal, in the middle of a transfer. -/
example : (exec Terminals.step (Terminals.init defaults)
    ([.opens false (some 1) true, .looked false (some 512), .trims false,
      .trimmed false, .loads false, .loaded false, .locks false,
      .opens true (some 1) true, .looked true none, .trims true] :
        List (TermAct UInt8 Bool))).map Terminals.stop = some (some .race) := by
  decide +kernel

end LearningLinux.ScullMem
