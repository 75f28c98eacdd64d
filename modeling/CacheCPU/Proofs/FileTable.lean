import CacheCPU.Lib.RefCount
import CacheCPU.Ucore.File
import Mathlib.Data.Fintype.Basic

/-!
# The open-file table over whole runs

A slot goes through one life after another: it is allocated, opened with a node, used, closed, and,
when the last use has ended, the node is closed once and the slot is free. `Life` is this as a
machine on the slot's events. Each piece of code between two calls acts on one slot and takes it a
few steps further, whatever the other threads are in the middle of, because `open_count` and the
status together say how far it is. A slot is opened in the step in which `file_open` or `file_dup`
returns its number, and in no other.
-/

namespace CacheCPU

namespace Ucore

/-! ## The life of a slot -/

inductive Life (ν : Type) where
  | free
  | reserved
  /-- Open with the node `n`, and `k` operations in progress. -/
  | live (n : ν) (k : ℕ)
  /-- Closed, but `k` operations are still in progress. -/
  | dying (n : ν) (k : ℕ)
  /-- The node is closed and the slot not yet free. -/
  | closed

/-- The events a slot may see, in each stage of its life. -/
def Life.step {ν : Type} [DecidableEq ν] : Life ν → FdEvent ν → Option (Life ν)
  | .free, .alloc => some .reserved
  | .reserved, .free => some .free
  | .reserved, .open n => some (.live n 0)
  | .live n k, .acquire => some (.live n (k + 1))
  | .live n (k + 1), .release => some (.live n k)
  | .live n k, .close => some (.dying n k)
  | .dying n (k + 1), .release => some (.dying n k)
  | .dying n 0, .vfsClose m => if m = n then some .closed else none
  | .closed, .free => some .free
  | _, _ => none

/-- What a call in progress does with its slot. -/
inductive Role where
  | opening
  | using
  | freeing
  deriving DecidableEq

namespace Call

variable {ν : Type}

def role : Call ν → Role × ℕ
  | .vfsOpen i _ _ _ | .openFstat i _ _ _ | .openClose i _ _ => (.opening, i)
  | .vfsClose i _ => (.freeing, i)
  | .io i | .seekFstat i _ | .tryseek i _ | .plain i => (.using, i)

end Call

/-! ## Runs -/

inductive FileAct (τ ν : Type) where
  | start (t : τ) (op : FileOp)
  | resume (t : τ) (reply : Reply ν)

def FileAct.thread {τ ν : Type} : FileAct τ ν → τ
  | .start t _ | .resume t _ => t

namespace FileTable

variable {τ ν : Type} [DecidableEq τ]

/-- The piece of code that runs in a step. -/
def exec (s : FileTable τ ν) : FileAct τ ν → Option (Files ν × Outcome ν)
  | .start _ op => s.files.start op
  | .resume t reply => (s.calls t).bind (s.files.resume reply)

/-- `none` is a failed assertion. -/
def step (s : FileTable τ ν) (a : FileAct τ ν) : Option (FileTable τ ν) :=
  (s.exec a).map (s.settle a.thread)

/-- A thread is in one call at a time, and goes on when the call returns. -/
def Allows (s : FileTable τ ν) : FileAct τ ν → Prop
  | .start t _ => s.calls t = none
  | .resume t _ => (s.calls t).isSome

/-- After `fd_array_init`. -/
structure Boot (s : FileTable τ ν) : Prop where
  status : ∀ i, (s.files.fdArray i).status = .none
  openCount : ∀ i, (s.files.fdArray i).openCount = 0
  fd : ∀ i, (s.files.fdArray i).fd = i
  log : s.files.log = []
  calls : ∀ t, s.calls t = none

inductive Reachable : FileTable τ ν → Prop
  | boot {s : FileTable τ ν} : Boot s → Reachable s
  | step {s s' : FileTable τ ν} (a : FileAct τ ν) : Reachable s → s.Allows a → s.step a = some s' →
      Reachable s'

/-- How many calls of a kind are in progress on a slot. -/
def count [Fintype τ] (s : FileTable τ ν) (r : Role) (i : ℕ) : ℕ :=
  RefCount.refs Finset.univ (fun t => (s.calls t).map Call.role) (r, i)

end FileTable

/-- The events of one slot. -/
def Files.events {ν : Type} (F : Files ν) (i : ℕ) : List (FdEvent ν) :=
  F.log.filterMap fun e => if e.1 = i then some e.2 else none

/-! ## One piece of code -/

variable {ν : Type}

/-- How a slot looks in each stage, with `cnt` calls of each kind in progress on it. -/
def Holds (f : File ν) (cnt : Role → ℕ) : Life ν → Prop
  | .free => f.status = .none ∧ f.openCount = 0 ∧
      cnt .opening = 0 ∧ cnt .using = 0 ∧ cnt .freeing = 0
  | .reserved => f.status = .init ∧ f.openCount = 0 ∧
      cnt .opening = 1 ∧ cnt .using = 0 ∧ cnt .freeing = 0
  | .live n k => f.status = .opened ∧ f.openCount = k + 1 ∧ f.node = some n ∧
      cnt .opening = 0 ∧ cnt .using = k ∧ cnt .freeing = 0
  | .dying n k => f.status = .closed ∧ f.openCount = k ∧ f.node = some n ∧ 0 < k ∧
      cnt .opening = 0 ∧ cnt .using = k ∧ cnt .freeing = 0
  | .closed => f.status = .closed ∧ f.openCount = 0 ∧
      cnt .opening = 0 ∧ cnt .using = 0 ∧ cnt .freeing = 1

/-- A thread goes from one call to another. -/
def move (cnt : Role → ℕ) (old new : Option Role) (r : Role) : ℕ :=
  cnt r + (if new = some r then 1 else 0) - (if old = some r then 1 else 0)

def Outcome.role : Outcome ν → Option (Role × ℕ)
  | .ret _ => none
  | .wait c => some c.role

variable [DecidableEq ν]

/-- Only the slot `i` is touched, and its life goes on from `l` to `l'`. -/
structure Turn (i : ℕ) (F : Files ν) (l : Life ν) (F' : Files ν) (l' : Life ν) : Prop where
  others : ∀ j, j ≠ i → F'.fdArray j = F.fdArray j
  fd : (F'.fdArray i).fd = (F.fdArray i).fd
  life : ∃ es : List (FdEvent ν), F'.log = F.log ++ es.map (Prod.mk i) ∧
    es.foldlM Life.step l = some l'

/-- The code goes through: it acts on the slot `i`, and its thread goes from the call `old` to the
one it makes next. -/
def Runs (i : ℕ) (F : Files ν) (l : Life ν) (cnt : Role → ℕ) (old : Option Role)
    (res : Option (Files ν × Outcome ν)) : Prop :=
  ∃ F' o l' new, res = some (F', o) ∧ Turn i F l F' l' ∧ o.role = Option.map (·, i) new ∧
    Holds (F'.fdArray i) (move cnt old new) l'

variable {i j : ℕ} {F F' F'' : Files ν} {l l' l'' : Life ν} {cnt : Role → ℕ}
  {old : Option Role} {n : ν} {k : ℕ} {ret : ℤ}

theorem Turn.refl : Turn i F l F l := ⟨fun _ _ => rfl, rfl, [], by simp, rfl⟩

theorem Turn.trans (h : Turn i F l F' l') (h' : Turn i F' l' F'' l'') : Turn i F l F'' l'' := by
  obtain ⟨es, he, hf⟩ := h.life
  obtain ⟨es', he', hf'⟩ := h'.life
  refine ⟨fun j hj => (h'.others j hj).trans (h.others j hj), h'.fd.trans h.fd, es ++ es', ?_, ?_⟩
  · rw [he', he, List.map_append, List.append_assoc]
  · rw [List.foldlM_append, hf]
    exact hf'

omit [DecidableEq ν] in
@[simp]
theorem setFile_fdArray_self {g : File ν → File ν} :
    (F.setFile i g).fdArray i = g (F.fdArray i) := Function.update_self ..

omit [DecidableEq ν] in
@[simp]
theorem emit_fdArray {e : FdEvent ν} : (F.emit i e).fdArray = F.fdArray := rfl

/-- A field of the slot is set. -/
theorem Turn.setFile {g : File ν → File ν} (hg : (g (F.fdArray i)).fd = (F.fdArray i).fd) :
    Turn i F l (F.setFile i g) l := by
  refine ⟨fun j hj => Function.update_of_ne hj _ _, ?_, [], by simp [Files.setFile], rfl⟩
  rw [setFile_fdArray_self, hg]

/-- An event is logged. -/
theorem Turn.emit {e : FdEvent ν} (h : l.step e = some l') : Turn i F l (F.emit i e) l' :=
  ⟨fun _ _ => rfl, rfl, [e], rfl, by simp [List.foldlM_cons, h]⟩

theorem move_move {mid new : Option Role} (h : ∀ r, old = some r → 0 < cnt r) :
    move (move cnt old mid) mid new = move cnt old new := by
  funext r
  have := h r
  unfold move
  split_ifs <;> simp_all
  all_goals omega

/-- The rest of a piece of code whose first part has been run. -/
theorem Runs.after (mid : Option Role) {res : Option (Files ν × Outcome ν)} (ht : Turn i F l F' l')
    (h : ∀ r, old = some r → 0 < cnt r) (hr : Runs i F' l' (move cnt old mid) mid res) :
    Runs i F l cnt old res := by
  obtain ⟨F'', o, l'', new, he, ht', ho, hh⟩ := hr
  rw [move_move h] at hh
  exact ⟨F'', o, l'', new, he, ht.trans ht', ho, hh⟩

/-- An operation that returns at once. -/
theorem Runs.done (h : Holds (F.fdArray i) cnt l) : Runs i F l cnt none (some (F, .ret ret)) := by
  have hm : move cnt none none = cnt := by
    funext r
    simp [move]
  exact ⟨F, _, l, none, rfl, Turn.refl, rfl, hm ▸ h⟩

/-- A field that the stages do not mention is set first. -/
theorem Runs.setFile {g : File ν → File ν} {res : Option (Files ν × Outcome ν)}
    (hg : (g (F.fdArray i)).fd = (F.fdArray i).fd) (hr : Runs i (F.setFile i g) l cnt old res) :
    Runs i F l cnt old res := by
  obtain ⟨F'', o, l'', new, he, ht', ho, hh⟩ := hr
  exact ⟨F'', o, l'', new, he, (Turn.setFile hg).trans ht', ho, hh⟩

/-! ## The functions on slots -/

theorem runs_fdArrayFree (h : Holds (F.fdArray i) cnt .reserved) :
    Runs i F .reserved cnt (some .opening) (F.fdArrayFree i ret) := by
  obtain ⟨hs, hc, h1, h2, h3⟩ := h
  refine ⟨F.freed i, .ret ret, .free, none, ?_, ?_, rfl, ?_⟩
  · simp [Files.fdArrayFree, hs, hc]
  · exact Turn.trans (Turn.setFile rfl) (Turn.emit rfl)
  · simp [Holds, Files.freed, move, hc, h1, h2, h3]

/-- A closed slot loses one of those that count. -/
theorem runs_fopenCountDec (hs : (F.fdArray i).status = .closed) (hn : (F.fdArray i).node = some n)
    (hc : (F.fdArray i).openCount = k + 1) (h1 : cnt .opening = 0) (h2 : cnt .using = k)
    (h3 : cnt .freeing = 0) : Runs i F (.dying n k) cnt none (F.fopenCountDec i ret) := by
  refine Runs.setFile (g := fun f => { f with openCount := f.openCount - 1 }) rfl ?_
  unfold Files.fopenCountDec
  simp only [setFile_fdArray_self]
  by_cases hk : k = 0
  · subst hk
    rw [if_pos (by omega)]
    refine ⟨(F.setFile i fun f => { f with openCount := f.openCount - 1 }).emit i (.vfsClose n),
      .wait (.vfsClose i ret), .closed, some .freeing, ?_, ?_, rfl, ?_⟩
    · simp [Files.fdArrayFree, hs, hn, hc]
    · exact Turn.emit (by simp [Life.step])
    · simp [Holds, move, hs, hc, h1, h2, h3]
  · rw [if_neg (by omega)]
    refine ⟨_, _, .dying n k, none, rfl, Turn.refl, rfl, ?_⟩
    simp only [Holds, setFile_fdArray_self, move]
    exact ⟨hs, by omega, hn, by omega, by simp [h1], by simp [h2], by simp [h3]⟩

theorem runs_fdArrayRelease (h : Holds (F.fdArray i) cnt l) (hu : 0 < cnt .using) :
    Runs i F l cnt (some .using) (F.fdArrayRelease i ret) := by
  have hpos : ∀ r, some Role.using = some r → 0 < cnt r := by
    rintro r ⟨⟩
    exact hu
  cases l with
  | live n k =>
    obtain ⟨hs, hc, hn, h1, h2, h3⟩ := h
    obtain ⟨k, rfl⟩ : ∃ k', k = k' + 1 := ⟨k - 1, by omega⟩
    refine Runs.after none (Turn.emit (e := .release) (show _ = some (.live n k) from rfl)) hpos ?_
    refine Runs.setFile (g := fun f => { f with openCount := f.openCount - 1 }) rfl ?_
    refine ⟨_, .ret ret, .live n k, none, ?_, Turn.refl, rfl, ?_⟩
    · rw [Files.fdArrayRelease, if_pos ⟨.inl hs, by omega⟩, Files.fopenCountDec]
      simp only [setFile_fdArray_self, emit_fdArray]
      rw [if_neg (by push_cast at hc; omega)]
    · simp only [Holds, setFile_fdArray_self, emit_fdArray, move]
      refine ⟨hs, by push_cast at hc; omega, hn, ?_, ?_, ?_⟩
      · simp [h1]
      · simp [h2]
      · simp [h3]
  | dying n k =>
    obtain ⟨hs, hc, hn, hk, h1, h2, h3⟩ := h
    obtain ⟨k, rfl⟩ : ∃ k', k = k' + 1 := ⟨k - 1, by omega⟩
    refine Runs.after none (Turn.emit (e := .release) (show _ = some (.dying n k) from rfl)) hpos ?_
    rw [Files.fdArrayRelease, if_pos ⟨.inr hs, by omega⟩]
    refine runs_fopenCountDec hs hn (by push_cast at hc; exact hc) ?_ ?_ ?_
    · simp [move, h1]
    · simp [move, h2]
    · simp [move, h3]
  | free => exact absurd h.2.2.2.1 (by omega)
  | reserved => exact absurd h.2.2.2.1 (by omega)
  | closed => exact absurd h.2.2.2.1 (by omega)

theorem runs_fdArrayClose (h : Holds (F.fdArray i) cnt (.live n k)) :
    Runs i F (.live n k) cnt none (F.fdArrayClose i ret) := by
  obtain ⟨hs, hc, hn, h1, h2, h3⟩ := h
  refine Runs.setFile (g := fun f => { f with status := .closed }) rfl ?_
  refine Runs.after none (Turn.emit (e := .close) (show _ = some (.dying n k) from rfl)) (by simp) ?_
  rw [Files.fdArrayClose, if_pos ⟨hs, by omega⟩]
  refine runs_fopenCountDec ?_ ?_ ?_ ?_ ?_ ?_
  · simp
  · simpa using hn
  · simpa using hc
  · simp [move, h1]
  · simp [move, h2]
  · simp [move, h3]

/-- A slot is taken. -/
theorem turn_alloc {F₁ : Files ν} (h : Holds (F.fdArray i) cnt l)
    (hs : (F.fdArray i).status = .none)
    (hF : F₁ = (F.setFile i fun f => { f with status := .init, node := none }).emit i .alloc) :
    Turn i F l F₁ .reserved ∧ Holds (F₁.fdArray i) (move cnt none (some .opening)) .reserved := by
  subst hF
  cases l with
  | free =>
    obtain ⟨-, hc, h1, h2, h3⟩ := h
    refine ⟨Turn.trans (Turn.setFile rfl) (Turn.emit rfl), ?_⟩
    simp [Holds, move, hc, h1, h2, h3]
  | reserved => simp [Holds, hs] at h
  | live n k => simp [Holds, hs] at h
  | dying n k => simp [Holds, hs] at h
  | closed => simp [Holds, hs] at h

omit [DecidableEq ν] in
/-- `fd_array_alloc` fails, or it takes a slot with `FD_NONE`. -/
theorem fdArrayAlloc_cases (fd : ℤ)
    (h : ∀ i, (F.fdArray i).status = .none → (F.fdArray i).openCount = 0) :
    (∃ e, F.fdArrayAlloc fd = some (.error e)) ∨
      ∃ i, (F.fdArray i).status = .none ∧ F.fdArrayAlloc fd = some (.ok (i,
        (F.setFile i fun f => { f with status := .init, node := none }).emit i .alloc)) := by
  have hfound : ∀ i, (F.fdArray i).status = .none → F.found i = some (.ok (i,
      (F.setFile i fun f => { f with status := .init, node := none }).emit i .alloc)) := by
    intro i hi
    rw [Files.found, if_pos (h i hi)]
  unfold Files.fdArrayAlloc
  split_ifs with h1 h2 h3
  · cases hfind : (List.range filesStructNentry).find? fun i => (F.fdArray i).status = .none with
    | none => exact .inl ⟨_, rfl⟩
    | some i =>
      have hi : (F.fdArray i).status = .none := by simpa using List.find?_some hfind
      exact .inr ⟨i, hi, hfound i hi⟩
  · exact .inr ⟨_, h3, hfound _ h3⟩
  · exact .inl ⟨_, rfl⟩
  · exact .inl ⟨_, rfl⟩

/-- A reserved slot that has its node is opened. -/
theorem runs_fdArrayOpen (h : Holds (F.fdArray i) cnt .reserved)
    (hn : (F.fdArray i).node = some n) :
    Runs i F .reserved cnt (some .opening)
      ((F.fdArrayOpen i).map fun F => (F, .ret (F.fdArray i).fd)) := by
  obtain ⟨hs, hc, h1, h2, h3⟩ := h
  refine ⟨(F.setFile i fun f => { f with status := .opened, openCount := f.openCount + 1 }).emit i
    (.open n), .ret (F.fdArray i).fd, .live n 0, none, ?_, ?_, rfl, ?_⟩
  · rw [Files.fdArrayOpen, if_pos hs, hn]
    simp
  · exact Turn.trans (Turn.setFile rfl) (Turn.emit rfl)
  · simp [Holds, move, hc, hn, h1, h2, h3]

theorem runs_openEnd {readable writable : Bool} (h : Holds (F.fdArray i) cnt .reserved) :
    Runs i F .reserved cnt (some .opening) (F.openEnd i n readable writable) := by
  refine Runs.setFile (g := fun f =>
    { f with node := some n, readable := readable, writable := writable }) rfl ?_
  exact runs_fdArrayOpen (n := n) (by simpa [Holds] using h) (by simp)

/-- An open file is acquired. -/
theorem turn_acquire {F₁ : Files ν} (h : Holds (F.fdArray i) cnt (.live n k))
    (hF : F₁ = (F.setFile i fun f => { f with openCount := f.openCount + 1 }).emit i .acquire) :
    F.fdArrayAcquire i = some F₁ ∧ Turn i F (.live n k) F₁ (.live n (k + 1)) ∧
      Holds (F₁.fdArray i) (move cnt none (some .using)) (.live n (k + 1)) := by
  obtain ⟨hs, hc, hn, h1, h2, h3⟩ := h
  subst hF
  refine ⟨by rw [Files.fdArrayAcquire, if_pos hs],
    Turn.trans (Turn.setFile rfl) (Turn.emit rfl), ?_⟩
  simp [Holds, move, hs, hc, hn, h1, h2, h3]

/-! ## The operations -/

omit [DecidableEq ν] in
theorem fd2file_some {fd : ℤ} (h : F.fd2file fd = some i) : (F.fdArray i).status = .opened := by
  unfold Files.fd2file at h
  split_ifs at h with hc
  cases h
  exact hc.2.1

omit [DecidableEq ν] in
theorem Holds.live (h : Holds (F.fdArray i) cnt l) (hs : (F.fdArray i).status = .opened) :
    ∃ n k, l = .live n k := by
  cases l with
  | live n k => exact ⟨n, k, rfl⟩
  | free => simp [Holds, hs] at h
  | reserved => simp [Holds, hs] at h
  | dying n k => simp [Holds, hs] at h
  | closed => simp [Holds, hs] at h

/-- An operation acquires the file and makes its call, or goes on to another piece of code. -/
theorem runs_acquire (h : Holds (F.fdArray i) cnt l) (hs : (F.fdArray i).status = .opened)
    (f : Files ν → Option (Files ν × Outcome ν))
    (hf : ∀ F₁ l₁, Holds (F₁.fdArray i) (move cnt none (some .using)) l₁ →
      Runs i F₁ l₁ (move cnt none (some .using)) (some .using) (f F₁)) :
    Runs i F l cnt none ((F.fdArrayAcquire i).bind f) := by
  obtain ⟨n, k, rfl⟩ := h.live hs
  obtain ⟨ha, ht, hh⟩ := turn_acquire h rfl
  rw [ha, Option.bind_some]
  exact Runs.after _ ht (by simp) (hf _ _ hh)

/-- A call that keeps the file acquired. -/
theorem runs_wait {c : Call ν} {r : Role} (h : Holds (F.fdArray i) cnt l) (hc : c.role = (r, i)) :
    Runs i F l cnt (some r) (some (F, .wait c)) := by
  have hm : move cnt (some r) (some r) = cnt := by
    funext r'
    by_cases he : r = r'
    · subst he
      simp [move]
    · simp [move, he]
  refine ⟨F, _, l, some r, rfl, Turn.refl, by simp [Outcome.role, hc], ?_⟩
  rw [hm]
  exact h

theorem runs_withFile {fd : ℤ} {f : ℕ → Files ν → Option (Files ν × Outcome ν)}
    {cnt : ℕ → Role → ℕ}
    (hf : ∀ i F₁ l₁ c₁, Holds (F₁.fdArray i) c₁ l₁ → 0 < c₁ .using →
      Runs i F₁ l₁ c₁ (some .using) (f i F₁)) :
    ∃ i, ∀ l, Holds (F.fdArray i) (cnt i) l → Runs i F l (cnt i) none (F.withFile fd f) := by
  unfold Files.withFile
  cases hfd : F.fd2file fd with
  | none => exact ⟨0, fun l hl => Runs.done hl⟩
  | some i =>
    refine ⟨i, fun l hl => runs_acquire hl (fd2file_some hfd) _ fun F₁ l₁ h₁ => ?_⟩
    exact hf i F₁ l₁ _ h₁ (by simp [move])

theorem runs_fileIo {fd : ℤ} {may : File ν → Bool} {cnt : ℕ → Role → ℕ} :
    ∃ i, ∀ l, Holds (F.fdArray i) (cnt i) l → Runs i F l (cnt i) none (F.fileIo may fd) := by
  unfold Files.fileIo
  cases hfd : F.fd2file fd with
  | none => exact ⟨0, fun l hl => Runs.done hl⟩
  | some i =>
    refine ⟨i, fun l hl => ?_⟩
    simp only
    split_ifs
    · rw [Option.map_eq_bind]
      exact runs_acquire hl (fd2file_some hfd) _ fun F₁ l₁ h₁ => runs_wait h₁ rfl
    · exact Runs.done hl

theorem runs_fileOpen {cnt : ℕ → Role → ℕ}
    (h0 : ∀ i, (F.fdArray i).status = .none → (F.fdArray i).openCount = 0) (openFlags : BitVec 32) :
    ∃ i, ∀ l, Holds (F.fdArray i) (cnt i) l → Runs i F l (cnt i) none (F.fileOpen openFlags) := by
  unfold Files.fileOpen
  cases Files.accmode openFlags with
  | none => exact ⟨0, fun l hl => Runs.done hl⟩
  | some m =>
    obtain ⟨e, he⟩ | ⟨i, hs, he⟩ := fdArrayAlloc_cases noFd h0
    · rw [he]
      exact ⟨0, fun l hl => Runs.done hl⟩
    · rw [he]
      refine ⟨i, fun l hl => ?_⟩
      obtain ⟨ht, hh⟩ := turn_alloc hl hs rfl
      exact Runs.after _ ht (by simp) (runs_wait hh rfl)

theorem runs_fileClose {cnt : ℕ → Role → ℕ} (fd : ℤ) :
    ∃ i, ∀ l, Holds (F.fdArray i) (cnt i) l → Runs i F l (cnt i) none (F.fileClose fd) := by
  unfold Files.fileClose
  cases hfd : F.fd2file fd with
  | none => exact ⟨0, fun l hl => Runs.done hl⟩
  | some i =>
    refine ⟨i, fun l hl => ?_⟩
    obtain ⟨n, k, rfl⟩ := hl.live (fd2file_some hfd)
    exact runs_fdArrayClose hl

theorem runs_fileDup {cnt : ℕ → Role → ℕ} (h : ∀ i, ∃ l, Holds (F.fdArray i) (cnt i) l)
    (h0 : ∀ i, (F.fdArray i).status = .none → (F.fdArray i).openCount = 0) (fd1 fd2 : ℤ) :
    ∃ i, ∀ l, Holds (F.fdArray i) (cnt i) l → Runs i F l (cnt i) none (F.fileDup fd1 fd2) := by
  unfold Files.fileDup
  cases hfd : F.fd2file fd1 with
  | none => exact ⟨0, fun l hl => Runs.done hl⟩
  | some j =>
    obtain ⟨e, he⟩ | ⟨i, hs, he⟩ := fdArrayAlloc_cases fd2 h0
    · rw [he]
      exact ⟨0, fun l hl => Runs.done hl⟩
    · rw [he]
      refine ⟨i, fun l hl => ?_⟩
      obtain ⟨ht, hh⟩ := turn_alloc hl hs rfl
      refine Runs.after (some .opening) ht (by simp) ?_
      -- the slot that is copied is another one, and has a node
      have hj := fd2file_some hfd
      have hij : j ≠ i := by
        rintro rfl
        simp [hs] at hj
      obtain ⟨l', hl'⟩ := h j
      obtain ⟨n, k, rfl⟩ := hl'.live hj
      simp only [Option.bind_some]
      rw [Files.fdArrayDup, ht.others j hij, if_pos ⟨hh.1, hj⟩]
      refine Runs.setFile (g := fun f => { f with
        pos := (F.fdArray j).pos
        readable := (F.fdArray j).readable
        writable := (F.fdArray j).writable
        node := (F.fdArray j).node }) rfl ?_
      exact runs_fdArrayOpen (n := n) (by simpa [Holds] using hh) (by simpa using hl'.2.2.1)

/-- An operation goes through up to its first call, and acts on one slot. -/
theorem runs_start (cnt : ℕ → Role → ℕ) (h : ∀ i, ∃ l, Holds (F.fdArray i) (cnt i) l)
    (op : FileOp) :
    ∃ i, ∀ l, Holds (F.fdArray i) (cnt i) l → Runs i F l (cnt i) none (F.start op) := by
  have h0 : ∀ i, (F.fdArray i).status = .none → (F.fdArray i).openCount = 0 := by
    intro i hi
    obtain ⟨l, hl⟩ := h i
    cases l <;> simp_all [Holds]
  cases op with
  | «open» openFlags => exact runs_fileOpen h0 openFlags
  | close fd => exact runs_fileClose fd
  | read fd => exact runs_fileIo
  | write fd => exact runs_fileIo
  | seek fd pos whence =>
    refine runs_withFile fun i F₁ l₁ c₁ h₁ hu => ?_
    split_ifs
    · exact runs_wait h₁ rfl
    · exact runs_wait h₁ rfl
    · exact runs_wait h₁ rfl
    · exact runs_fdArrayRelease h₁ hu
  | fstat fd => exact runs_withFile fun i F₁ l₁ c₁ h₁ hu => runs_wait h₁ rfl
  | fsync fd => exact runs_withFile fun i F₁ l₁ c₁ h₁ hu => runs_wait h₁ rfl
  | getdirentry fd => exact runs_withFile fun i F₁ l₁ c₁ h₁ hu => runs_wait h₁ rfl
  | dup fd1 fd2 => exact runs_fileDup h h0 fd1 fd2

omit [DecidableEq ν] in
theorem Holds.reserved (h : Holds (F.fdArray i) cnt l) (hc : 0 < cnt .opening) : l = .reserved := by
  cases l with
  | reserved => rfl
  | free => exact absurd h.2.2.1 (by omega)
  | live n k => exact absurd h.2.2.2.1 (by omega)
  | dying n k => exact absurd h.2.2.2.2.1 (by omega)
  | closed => exact absurd h.2.2.1 (by omega)

omit [DecidableEq ν] in
theorem Holds.closed (h : Holds (F.fdArray i) cnt l) (hc : 0 < cnt .freeing) : l = .closed := by
  cases l with
  | closed => rfl
  | free => exact absurd h.2.2.2.2 (by omega)
  | reserved => exact absurd h.2.2.2.2 (by omega)
  | live n k => exact absurd h.2.2.2.2.2 (by omega)
  | dying n k => exact absurd h.2.2.2.2.2.2 (by omega)

/-- So does what follows a call. -/
theorem runs_resume {c : Call ν} {r : Role} (hc : c.role = (r, i)) (h : Holds (F.fdArray i) cnt l)
    (hr : 0 < cnt r) (reply : Reply ν) : Runs i F l cnt (some r) (F.resume reply c) := by
  cases c with
  | vfsOpen i openFlags readable writable =>
    cases hc
    cases h.reserved hr
    simp only [Files.resume]
    split_ifs
    · exact runs_fdArrayFree h
    · exact Runs.setFile rfl (runs_wait (by simpa [Holds] using h) rfl)
    · exact Runs.setFile rfl (runs_openEnd (by simpa [Holds] using h))
  | openFstat i n readable writable =>
    cases hc
    cases h.reserved hr
    simp only [Files.resume]
    split_ifs
    · exact runs_wait h rfl
    · exact Runs.setFile rfl (runs_openEnd (by simpa [Holds] using h))
  | openClose i ret hret =>
    cases hc
    cases h.reserved hr
    exact runs_fdArrayFree h
  | vfsClose i ret =>
    cases hc
    cases h.closed hr
    obtain ⟨hs, hc, h1, h2, h3⟩ := h
    refine ⟨F.freed i, .ret ret, .free, none, rfl, ?_, rfl, ?_⟩
    · exact Turn.trans (Turn.setFile rfl) (Turn.emit rfl)
    · simp [Holds, Files.freed, move, hc, h1, h2, h3]
  | io i =>
    cases hc
    simp only [Files.resume]
    split_ifs
    · refine Runs.setFile rfl (runs_fdArrayRelease ?_ hr)
      cases l <;> simpa [Holds] using h
    · exact runs_fdArrayRelease h hr
  | seekFstat i pos =>
    cases hc
    simp only [Files.resume]
    split_ifs
    · exact runs_wait h rfl
    · exact runs_fdArrayRelease h hr
  | tryseek i pos =>
    cases hc
    simp only [Files.resume]
    split_ifs
    · refine Runs.setFile rfl (runs_fdArrayRelease ?_ hr)
      cases l <;> simpa [Holds] using h
    · exact runs_fdArrayRelease h hr
  | plain i =>
    cases hc
    exact runs_fdArrayRelease h hr

/-! ## What the life of a slot says about its events -/

section Opens

omit [DecidableEq ν]

/-- The slots that have been opened, with the nodes. -/
def Files.opens (F : Files ν) : List (ℕ × ν) :=
  F.log.filterMap fun e => match e.2 with
    | .open n => some (e.1, n)
    | _ => none

/-- The code opens no slot. -/
def KeepsOpens (F : Files ν) (res : Option (Files ν × Outcome ν)) : Prop :=
  ∀ F' o, res = some (F', o) → F'.opens = F.opens

theorem KeepsOpens.congr {res : Option (Files ν × Outcome ν)} (h : KeepsOpens F' res)
    (he : F'.opens = F.opens) : KeepsOpens F res := fun F'' o hr => (h F'' o hr).trans he

end Opens

/-! ## Every run -/

namespace FileTable

variable {τ : Type} [DecidableEq τ] [Fintype τ] {s s' : FileTable τ ν}

/-- Each slot has led the life its events tell, and is where they leave it. -/
def Inv (s : FileTable τ ν) : Prop :=
  ∀ i, (s.files.fdArray i).fd = i ∧ ∃ l, (s.files.events i).foldlM Life.step .free = some l ∧
    Holds (s.files.fdArray i) (fun r => s.count r i) l

omit [DecidableEq τ] in
theorem Boot.inv (h : Boot s) : s.Inv := by
  intro i
  have hc : ∀ r, s.count r i = 0 := by
    intro r
    rw [count, RefCount.refs_eq_zero]
    simp [h.calls]
  refine ⟨h.fd i, .free, by simp [Files.events, h.log], h.status i, h.openCount i, hc _, hc _, hc _⟩

omit [DecidableEq ν] in
/-- The calls in progress after a thread has come to another one. -/
theorem count_settle (F' : Files ν) {t : τ} {o : Outcome ν} (r : Role) (j : ℕ) :
    (s.settle t (F', o)).count r j + (if (s.calls t).map Call.role = some (r, j) then 1 else 0) =
      s.count r j + if o.role = some (r, j) then 1 else 0 := by
  have h := RefCount.refs_update (f := fun u => (s.calls u).map Call.role) (p := (r, j))
    (Finset.mem_univ t) o.role
  rw [count, count, ← h]
  congr 2
  funext u
  by_cases hu : u = t
  · subst hu
    cases o <;> simp [settle, Outcome.role]
  · cases o <;> simp [settle, Function.update_of_ne hu]

omit [DecidableEq ν] in
/-- The events logged for one slot are seen by that slot alone. -/
theorem events_append {es : List (FdEvent ν)} (he : F'.log = F.log ++ es.map (Prod.mk i)) :
    F'.events j = if j = i then F.events j ++ es else F.events j := by
  unfold Files.events
  rw [he, List.filterMap_append]
  split_ifs with hj
  · subst hj
    simp [List.filterMap_map]
  · have hij : i ≠ j := fun h => hj h.symm
    simp [List.filterMap_map, hij]

theorem Inv.settle (h : s.Inv) {t : τ} (old : Option Role)
    (hold : (s.calls t).map Call.role = old.map (·, i)) {res : Option (Files ν × Outcome ν)}
    (hr : ∀ l, Holds (s.files.fdArray i) (fun r => s.count r i) l →
      Runs i s.files l (fun r => s.count r i) old res) :
    ∃ x, res = some x ∧ (s.settle t x).Inv := by
  obtain ⟨hfd, l, hl, hh⟩ := h i
  obtain ⟨F', o, l', new, he, ht, ho, hh'⟩ := hr l hh
  obtain ⟨es, hlog, hes⟩ := ht.life
  refine ⟨(F', o), he, fun j => ?_⟩
  have hfiles : (s.settle t (F', o)).files = F' := by cases o <;> rfl
  have hcount := fun r => count_settle F' (s := s) (t := t) (o := o) r j
  rw [hfiles, events_append hlog]
  by_cases hj : j = i
  · subst hj
    rw [if_pos rfl, List.foldlM_append, hl]
    refine ⟨ht.fd.trans hfd, l', hes, ?_⟩
    convert hh' using 1
    funext r
    have hcnt := hcount r
    have hpos : old = some r → 0 < s.count r j := by
      rintro rfl
      exact RefCount.refs_pos (Finset.mem_univ t) hold
    rw [hold, ho] at hcnt
    unfold move
    simp only [Option.map_eq_some_iff, Prod.mk.injEq, and_true, exists_eq_right] at hcnt
    by_cases h1 : old = some r
    · have := hpos h1
      simp only [h1, if_true] at hcnt ⊢
      omega
    · simp only [h1, if_false] at hcnt ⊢
      omega
  · rw [if_neg hj, ht.others j hj]
    have hc : ∀ r, (s.settle t (F', o)).count r j = s.count r j := by
      intro r
      have hne : ∀ x : Option Role, Option.map (·, i) x ≠ some (r, j) := by
        intro x hx
        simp only [Option.map_eq_some_iff, Prod.mk.injEq] at hx
        obtain ⟨_, -, -, hij⟩ := hx
        exact hj hij.symm
      have := hcount r
      rwa [hold, ho, if_neg (hne _), if_neg (hne _)] at this
    simp only [hc]
    exact h j

theorem Inv.step (h : s.Inv) (a : FileAct τ ν) (ha : s.Allows a) :
    ∃ s', s.step a = some s' ∧ s'.Inv := by
  cases a with
  | start t op =>
    have ha : s.calls t = none := ha
    obtain ⟨i, hi⟩ := runs_start (F := s.files) (fun i r => s.count r i)
      (fun i => (h i).2.imp fun l hl => hl.2) op
    obtain ⟨x, hx, hinv⟩ := h.settle (t := t) none (by simp [ha]) hi
    exact ⟨s.settle t x, by simp [FileTable.step, exec, hx, FileAct.thread], hinv⟩
  | resume t reply =>
    obtain ⟨c, hc⟩ := Option.isSome_iff_exists.1 ha
    obtain ⟨x, hx, hinv⟩ := h.settle (t := t) (i := c.role.2) (some c.role.1) (by simp [hc])
      fun l hl => runs_resume (c := c) (r := c.role.1) rfl hl
        (RefCount.refs_pos (Finset.mem_univ t) (by simp [hc])) reply
    exact ⟨s.settle t x, by simp [FileTable.step, exec, hc, hx, FileAct.thread], hinv⟩

theorem Reachable.inv (h : Reachable s) : s.Inv := by
  induction h with
  | boot hb => exact hb.inv
  | step a _ ha hs ih =>
    obtain ⟨s', hs', hi⟩ := ih.step a ha
    rw [hs] at hs'
    cases hs'
    exact hi

/-- The step belongs to a `file_open` or a `file_dup`. -/
def Opening (s : FileTable τ ν) : FileAct τ ν → Prop
  | .start _ (.open _) | .start _ (.dup _ _) => True
  | .start _ _ => False
  | .resume t _ => ∃ c, s.calls t = some c ∧ c.role.1 = .opening

end FileTable

end Ucore

end CacheCPU
