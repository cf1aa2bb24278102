import RtSched.Base.Call
import RtSched.Base.CString
import RtSched.Task

/-!
# The list of processes (`sys_get_current_processes`)

The call prints a line for every process into a buffer of the kernel, cuts the text to what the user
asked for and copies it out.  A first pass over the processes measures the lines, a second one prints
them, each where the text so far ends.

Where the text is cut, everything is as it should be.  Where it fits, the terminating NUL is stored
once more, at index `total_len + 1`, one byte behind the buffer; with no process at all that NUL does
not end the text, and what is copied is what `kmalloc` left in the first byte.

* `Process`, `processLine`, `listing`: the lines and the text;
* `getCurrentProcesses`: the call;
* `processLine_fits`, `measureTasks_eq`: the lines fit into `temp`, and the first pass measures the
  text;
* `showTasks_read`: the second pass leaves the text in the buffer;
* `getCurrentProcesses_bounded_iff`: the call keeps to its buffer, and delivers what fits, exactly if
  the text has to be cut.
-/

namespace RtSched

open CString

/-! ### The lines -/

/-- The NUL character. -/
def nulChar : Char := Char.ofNat 0

/-- The fields of `struct task_struct` that are printed.  A name is a string of at most 15
characters. -/
structure Process where
  pid : BitVec 32
  normalPrio : BitVec 32
  comm : List Char
  comm_length : comm.length ≤ 15
  comm_nul : nulChar ∉ comm

/-- The conversion `%d`. -/
def decimal : ℤ → List Char
  | .ofNat n => Nat.toDigits 10 n
  | .negSucc n => '-' :: Nat.toDigits 10 (n + 1)

/-- The line of a process: `Pid = [%d] Prio = [%d] Name = [%s]` and a line feed. -/
def processLine (curr : Process) : List Char :=
  ['P', 'i', 'd', ' ', '=', ' ', '['] ++ decimal curr.pid.toInt ++
    [']', ' ', 'P', 'r', 'i', 'o', ' ', '=', ' ', '['] ++ decimal curr.normalPrio.toInt ++
    [']', ' ', 'N', 'a', 'm', 'e', ' ', '=', ' ', '['] ++ curr.comm ++ [']', '\n']

/-- All lines, one after the other. -/
def listing (processes : List Process) : List Char := processes.flatMap processLine

/-- `BUF_LEN`, the size of the buffer `temp` in which a line is measured. -/
def bufLen : ℕ := 80

/-! ### The call -/

/-- The buffer of the user: whether it is `NULL`, whether `access_ok` accepts so many bytes of it, and
how many can be written before a fault. -/
structure UserBuffer where
  null : Bool
  accessOk : ℤ → Bool
  writable : ℕ

/-- The buffer `my_msg`, with all indices that were written. -/
structure KernelBuffer where
  byte : ℕ → Char
  written : List ℕ

/-- Characters are stored into the buffer. -/
def KernelBuffer.store (text : List Char) (off : ℕ) (msg : KernelBuffer) : KernelBuffer where
  byte := put text off msg.byte
  written := msg.written ++ List.range' off text.length

/-- What a call leaves: the return value, the indices it wrote and the bytes it copied out. -/
structure Listed where
  ret : ℤ
  written : List ℕ
  copied : List Char
  deriving DecidableEq, Repr

/-- One turn of the first pass: `sprintf` into `temp`, and `total_len`. -/
def measureTask (fuel : ℕ) (x : (ℕ → Char) × ℕ) (curr : Process) : Option ((ℕ → Char) × ℕ) :=
  let temp := put (processLine curr ++ [nulChar]) 0 x.1
  (strlen nulChar fuel temp).map fun len => (temp, x.2 + len)

/-- The first pass. -/
def measureTasks (fuel : ℕ) (x : (ℕ → Char) × ℕ) (processes : List Process) :
    Option ((ℕ → Char) × ℕ) :=
  processes.foldlM (measureTask fuel) x

/-- One turn of the second pass: `sprintf` at the offset, and the next offset. -/
def showTask (fuel : ℕ) (x : KernelBuffer × ℕ) (curr : Process) : Option (KernelBuffer × ℕ) :=
  let msg := x.1.store (processLine curr ++ [nulChar]) x.2
  (strlen nulChar fuel msg.byte).map fun msgOffset => (msg, msgOffset)

/-- The second pass. -/
def showTasks (fuel : ℕ) (x : KernelBuffer × ℕ) (processes : List Process) :
    Option (KernelBuffer × ℕ) :=
  processes.foldlM (showTask fuel) x

/-- The NUL at the end, the length of what is left and the copy. -/
def deliver (fuel : ℕ) (buf : UserBuffer) (n : ℤ) (totalLen : ℕ) (msg : KernelBuffer) :
    Option Listed :=
  let length := if n < totalLen + 1 then n - 1 else totalLen + 1
  let msg := msg.store [nulChar] length.toNat
  (strlen nulChar fuel msg.byte).map fun returnBufLen =>
    if returnBufLen + 1 ≤ buf.writable then
      ⟨totalLen - returnBufLen, msg.written, read msg.byte (returnBufLen + 1)⟩
    else ⟨-efault, msg.written, read msg.byte buf.writable⟩

/-- A result, unless `strlen` is still running. -/
def orSpins {α : Type} : Option α → Except Trap α
  | some a => .ok a
  | none => .error .spins

/-- `kmalloc` gives the memory from the new buffer on, with whatever stands there, or `NULL`, which is
then written through. -/
def orOops {α : Type} : Option α → Except Trap α
  | some a => .ok a
  | none => .error .oops

/-- `sys_get_current_processes`; `temp` is what the array on the stack holds before. -/
def getCurrentProcesses (fuel : ℕ) (temp : ℕ → Char) (kmalloc : ℕ → Option (ℕ → Char))
    (buf : UserBuffer) (n : ℤ) (processes : List Process) : Except Trap Listed :=
  if buf.null ∨ n ≤ 0 then pure ⟨-1, [], []⟩
  else if buf.accessOk n = false then pure ⟨-efault, [], []⟩
  else do
    let (_, totalLen) ← orSpins (measureTasks fuel (temp, 0) processes)
    let byte ← orOops (kmalloc (totalLen + 1))
    let (msg, _) ← orSpins (showTasks fuel (⟨byte, []⟩, 0) processes)
    orSpins (deliver fuel buf n totalLen msg)

/-- The user has a buffer of `n` bytes. -/
structure UserBuffer.Holds (buf : UserBuffer) (n : ℤ) : Prop where
  ne_null : buf.null = false
  accessOk : buf.accessOk n = true
  writable : n ≤ buf.writable

/-- What the call is meant to do: it writes the indices up to the length of the text, copies at most
`n` bytes, the longest part of the text that fits and a NUL, and returns how many were cut off. -/
structure Bounded (n : ℤ) (processes : List Process) (r : Listed) : Prop where
  written : ∀ i ∈ r.written, i ≤ (listing processes).length
  copied_le : (r.copied.length : ℤ) ≤ n
  copied : r.copied = (listing processes).take (n - 1).toNat ++ [nulChar]
  ret : r.ret = ((listing processes).drop (n - 1).toNat).length

/-! ### Lines are strings -/

section Lines

variable {curr : Process} {processes : List Process}

theorem nul_not_mem_decimal (n : ℤ) : nulChar ∉ decimal n := by
  have hdigits : ∀ k, nulChar ∉ Nat.toDigits 10 k := by
    intro k hmem
    have hdigit := Nat.isDigit_of_mem_toDigits (by decide) (by decide) hmem
    exact absurd hdigit (by decide)
  cases n with
  | ofNat k => exact hdigits k
  | negSucc k =>
    rw [decimal, List.mem_cons, not_or]
    exact ⟨by decide, hdigits (k + 1)⟩

theorem nul_not_mem_processLine : nulChar ∉ processLine curr := by
  simp only [processLine, List.mem_append, not_or]
  refine ⟨⟨⟨⟨⟨⟨?_, ?_⟩, ?_⟩, ?_⟩, ?_⟩, ?_⟩, ?_⟩
  · decide
  · exact nul_not_mem_decimal _
  · decide
  · exact nul_not_mem_decimal _
  · decide
  · exact curr.comm_nul
  · decide

/-- An `int` has at most eleven characters. -/
theorem length_decimal_le (x : BitVec 32) : (decimal x.toInt).length ≤ 11 := by
  have hlo := BitVec.le_toInt x
  have hhi := BitVec.toInt_lt (x := x)
  generalize x.toInt = n at hlo hhi
  cases n with
  | ofNat k =>
    rw [Int.ofNat_eq_natCast] at hhi
    exact (Nat.toDigits_length 10 k 10 (by decide) (by omega)).trans (by decide)
  | negSucc k =>
    rw [decimal, List.length_cons]
    exact Nat.succ_le_succ (Nat.toDigits_length 10 (k + 1) 10 (by decide) (by omega))

/-- Every line, with its NUL, fits into `temp`. -/
theorem processLine_fits (curr : Process) : (processLine curr).length + 1 ≤ bufLen := by
  have hpid := length_decimal_le curr.pid
  have hprio := length_decimal_le curr.normalPrio
  have hcomm := curr.comm_length
  simp only [processLine, List.length_append, List.length_cons, List.length_nil, bufLen]
  omega

theorem nul_not_mem_listing : nulChar ∉ listing processes := by
  intro hmem
  obtain ⟨curr, -, hcurr⟩ := List.mem_flatMap.1 hmem
  exact nul_not_mem_processLine hcurr

theorem listing_cons : listing (curr :: processes) = processLine curr ++ listing processes :=
  List.flatMap_cons ..

end Lines

/-! ### The two passes -/

section Passes

variable {fuel : ℕ} {processes : List Process} {msg : KernelBuffer} {done : List Char}

/-- The first pass measures the text, whatever `temp` held before. -/
theorem measureTasks_eq (hfuel : (listing processes).length < fuel) (temp : ℕ → Char) (k : ℕ) :
    ∃ temp', measureTasks fuel (temp, k) processes = some (temp', k + (listing processes).length) := by
  induction processes generalizing temp k with
  | nil => exact ⟨temp, rfl⟩
  | cons curr processes ih =>
    rw [listing_cons, List.length_append] at hfuel
    have hline : IsString nulChar (put (processLine curr ++ [nulChar]) 0 temp) (processLine curr) :=
      isString_put (t := []) rfl List.not_mem_nil nul_not_mem_processLine
    obtain ⟨temp', htemp⟩ := ih (by omega) (put (processLine curr ++ [nulChar]) 0 temp)
      (k + (processLine curr).length)
    refine ⟨temp', ?_⟩
    rw [measureTasks, List.foldlM_cons, measureTask, hline.strlen (by omega), listing_cons,
      List.length_append, ← add_assoc]
    exact htemp

/-- The second pass puts the lines behind the text that is there, and writes up to the NUL at the
end. -/
theorem showTasks_read (hread : read msg.byte done.length = done) (hnul : nulChar ∉ done)
    (hfuel : (done ++ listing processes).length < fuel)
    (hw : ∀ i ∈ msg.written, i ≤ (done ++ listing processes).length) :
    ∃ msg', showTasks fuel (msg, done.length) processes =
        some (msg', (done ++ listing processes).length) ∧
      read msg'.byte (done ++ listing processes).length = done ++ listing processes ∧
      ∀ i ∈ msg'.written, i ≤ (done ++ listing processes).length := by
  induction processes generalizing msg done with
  | nil =>
    have hempty : done ++ listing [] = done := List.append_nil done
    rw [hempty] at hw ⊢
    exact ⟨msg, rfl, hread, hw⟩
  | cons curr processes ih =>
    have happend : done ++ listing (curr :: processes) =
        done ++ processLine curr ++ listing processes := by
      rw [listing_cons, List.append_assoc]
    rw [happend] at hfuel hw ⊢
    have hstring : IsString nulChar (put (processLine curr ++ [nulChar]) done.length msg.byte)
        (done ++ processLine curr) := isString_put hread hnul nul_not_mem_processLine
    have hlen : (done ++ processLine curr).length < fuel := by
      rw [List.length_append] at hfuel
      omega
    have hw' : ∀ i ∈ (msg.store (processLine curr ++ [nulChar]) done.length).written,
        i ≤ (done ++ processLine curr ++ listing processes).length := by
      intro i hi
      rcases List.mem_append.1 hi with hi | hi
      · exact hw i hi
      · rw [List.mem_range'_1, List.length_append, List.length_singleton] at hi
        simp only [List.length_append]
        omega
    obtain ⟨msg', hmsg, hrest⟩ := ih hstring.text hstring.no_nul hfuel hw'
    refine ⟨msg', ?_, hrest⟩
    rw [showTasks, List.foldlM_cons, showTask]
    simp only [KernelBuffer.store, hstring.strlen hlen]
    exact hmsg

end Passes

/-! ### The end of the call -/

section Call

variable {fuel : ℕ} {temp : ℕ → Char} {kmalloc : ℕ → Option (ℕ → Char)} {buf : UserBuffer} {n : ℤ}
  {processes : List Process} {msg : KernelBuffer} {r : Listed}

/-- After the first pass the buffer is requested for the length of the text. -/
theorem getCurrentProcesses_measured (hn : 1 ≤ n) (hbuf : buf.Holds n)
    (hfuel : (listing processes).length + 1 < fuel) :
    getCurrentProcesses fuel temp kmalloc buf n processes = (do
      let byte ← orOops (kmalloc ((listing processes).length + 1))
      let (msg, _) ← orSpins (showTasks fuel (⟨byte, []⟩, 0) processes)
      orSpins (deliver fuel buf n (listing processes).length msg)) := by
  have hne : ¬ (buf.null = true ∨ n ≤ 0) := by
    rw [hbuf.ne_null]
    simp only [Bool.false_eq_true, false_or]
    omega
  obtain ⟨temp', htemp⟩ := measureTasks_eq (by omega : (listing processes).length < fuel) temp 0
  rw [zero_add] at htemp
  rw [getCurrentProcesses, if_neg hne, hbuf.accessOk, if_neg (by decide), htemp]
  rfl

/-- After the second pass the text is in the buffer, and the rest of the call is to come. -/
theorem getCurrentProcesses_eq (temp : ℕ → Char) (hn : 1 ≤ n) (hbuf : buf.Holds n)
    (hfuel : (listing processes).length + 1 < fuel) {byte : ℕ → Char}
    (hbyte : kmalloc ((listing processes).length + 1) = some byte) :
    ∃ msg, getCurrentProcesses fuel temp kmalloc buf n processes =
        orSpins (deliver fuel buf n (listing processes).length msg) ∧
      read msg.byte (listing processes).length = listing processes ∧
      ∀ i ∈ msg.written, i ≤ (listing processes).length := by
  have hlen : ([] ++ listing processes).length < fuel := by
    rw [List.nil_append]
    omega
  have hstart : ∀ i ∈ (⟨byte, []⟩ : KernelBuffer).written, i ≤ ([] ++ listing processes).length :=
    fun i hi => absurd hi List.not_mem_nil
  obtain ⟨msg, hmsg, hread, hw⟩ := showTasks_read rfl List.not_mem_nil hlen hstart
  refine ⟨msg, ?_, hread, hw⟩
  have hpass : showTasks fuel (⟨byte, []⟩, 0) processes =
      some (msg, ([] ++ listing processes).length) := hmsg
  rw [getCurrentProcesses_measured hn hbuf hfuel, hbyte]
  show (orSpins (showTasks fuel (⟨byte, []⟩, 0) processes) >>= _) = _
  rw [hpass]
  rfl

/-- A text that has to be cut is delivered as it should be. -/
theorem deliver_cut (hn : 1 ≤ n) (hbuf : buf.Holds n)
    (hfuel : (listing processes).length + 1 < fuel)
    (hread : read msg.byte (listing processes).length = listing processes)
    (hw : ∀ i ∈ msg.written, i ≤ (listing processes).length)
    (hcut : n ≤ (listing processes).length) :
    ∃ r, deliver fuel buf n (listing processes).length msg = some r ∧ Bounded n processes r := by
  obtain ⟨k, rfl⟩ : ∃ k : ℕ, n = k + 1 := ⟨(n - 1).toNat, by omega⟩
  have hk : k ≤ (listing processes).length := by omega
  have htoNat : ((k : ℤ) + 1 - 1).toNat = k := by omega
  have hstring := isString_cut hread nul_not_mem_listing hk
  have hlen : ((listing processes).take k).length = k := by rw [List.length_take, min_eq_left hk]
  have hwritable := hbuf.writable
  have hcopied := hstring.read_succ_length
  have hstrlen := hstring.strlen (by omega : ((listing processes).take k).length < fuel)
  rw [hlen] at hcopied hstrlen
  refine ⟨⟨(listing processes).length - k, msg.written ++ [k], (listing processes).take k ++ [nulChar]⟩,
    ?_, ?_⟩
  · simp only [deliver, KernelBuffer.store]
    rw [if_pos (by omega), htoNat, hstrlen, Option.map_some, if_pos (by omega), hcopied]
    rfl
  · refine ⟨?_, ?_, ?_, ?_⟩
    · intro i hi
      rcases List.mem_append.1 hi with hi | hi
      · exact hw i hi
      · rw [List.mem_singleton.1 hi]
        exact hk
    · rw [List.length_append, hlen, List.length_singleton]
      exact le_of_eq (Nat.cast_succ k)
    · rw [htoNat]
    · rw [htoNat, List.length_drop, Nat.cast_sub hk]

/-- Where the text fits, the byte behind the buffer is written. -/
theorem mem_written_of_fits {totalLen : ℕ} (hfit : totalLen < n)
    (h : deliver fuel buf n totalLen msg = some r) : totalLen + 1 ∈ r.written := by
  obtain ⟨k, -, rfl⟩ := Option.map_eq_some_iff.1 h
  have hlength : (if n < totalLen + 1 then n - 1 else (totalLen : ℤ) + 1).toNat = totalLen + 1 := by
    rw [if_neg (by omega)]
    omega
  have hmem : totalLen + 1 ∈ (msg.store [nulChar] (totalLen + 1)).written :=
    List.mem_append_right _ (List.mem_range'_1.2 ⟨le_rfl, Nat.lt_succ_self _⟩)
  rw [hlength]
  split_ifs
  · exact hmem
  · exact hmem

end Call

/-- **When the process list keeps to its buffer.**  For a user buffer of `n` bytes the call returns,
writes only the `total_len + 1` bytes of its own buffer, delivers the longest part of the text that
fits with a NUL, and returns the number of bytes cut off, exactly if `kmalloc` succeeds and the text,
without its NUL, has at least `n` characters. -/
theorem getCurrentProcesses_bounded_iff (fuel : ℕ) (temp : ℕ → Char)
    (kmalloc : ℕ → Option (ℕ → Char)) (buf : UserBuffer) (n : ℤ) (processes : List Process)
    (hn : 1 ≤ n) (hbuf : buf.Holds n) (hfuel : (listing processes).length + 1 < fuel) :
    (∃ r, getCurrentProcesses fuel temp kmalloc buf n processes = .ok r ∧ Bounded n processes r) ↔
      (kmalloc ((listing processes).length + 1)).isSome = true ∧ n ≤ (listing processes).length := by
  cases hbyte : kmalloc ((listing processes).length + 1) with
  | none =>
    refine iff_of_false ?_ fun h => Bool.noConfusion h.1
    rintro ⟨r, hr, -⟩
    rw [getCurrentProcesses_measured hn hbuf hfuel, hbyte] at hr
    cases hr
  | some byte =>
    obtain ⟨msg, hcall, hread, hw⟩ := getCurrentProcesses_eq temp hn hbuf hfuel hbyte
    rw [hcall]
    constructor
    · rintro ⟨r, hr, hbounded⟩
      refine ⟨rfl, not_lt.1 fun hfit => ?_⟩
      cases hdeliver : deliver fuel buf n (listing processes).length msg with
      | none =>
        rw [hdeliver] at hr
        cases hr
      | some r' =>
        rw [hdeliver] at hr
        cases hr
        have hmem := hbounded.written _ (mem_written_of_fits hfit hdeliver)
        omega
    · rintro ⟨-, hcut⟩
      obtain ⟨r, hr, hbounded⟩ := deliver_cut hn hbuf hfuel hread hw hcut
      exact ⟨r, by rw [hr]; rfl, hbounded⟩

/-- The process `init`. -/
def initProcess : Process where
  pid := 1
  normalPrio := 120
  comm := ['i', 'n', 'i', 't']
  comm_length := by decide
  comm_nul := by decide

/-- The process `kthreadd`. -/
def kthreaddProcess : Process where
  pid := 2
  normalPrio := 120
  comm := ['k', 't', 'h', 'r', 'e', 'a', 'd', 'd']
  comm_length := by decide
  comm_nul := by decide

/-- Lines of 37 and of 41 characters, cut to fifty bytes. -/
theorem getCurrentProcesses_bounded_iff_pair :
    ∃ r, getCurrentProcesses 80 (fun _ => 'x') (fun _ => some fun _ => 'x') ⟨false, fun _ => true, 50⟩
        50 [initProcess, kthreaddProcess] = .ok r ∧ Bounded 50 [initProcess, kthreaddProcess] r :=
  (getCurrentProcesses_bounded_iff 80 (fun _ => 'x') (fun _ => some fun _ => 'x')
    ⟨false, fun _ => true, 50⟩ 50 [initProcess, kthreaddProcess] (by decide) ⟨rfl, rfl, le_rfl⟩
    (by decide)).2 ⟨rfl, by decide⟩

/-- A user buffer of a hundred bytes for the line of `init`: index 38 of 38 bytes is written. -/
theorem getCurrentProcesses_overruns :
    ¬ ∀ (fuel : ℕ) (temp byte : ℕ → Char) (buf : UserBuffer) (n : ℤ) (processes : List Process),
      1 ≤ n → buf.Holds n → (listing processes).length + 1 < fuel →
        ∃ r, getCurrentProcesses fuel temp (fun _ => some byte) buf n processes = .ok r ∧
          Bounded n processes r := by
  intro hall
  obtain ⟨r, hr, hbounded⟩ := hall 39 (fun _ => 'x') (fun _ => 'x') ⟨false, fun _ => true, 100⟩ 100
    [initProcess] (by decide) ⟨rfl, rfl, le_rfl⟩ (by decide)
  obtain rfl : (⟨0, List.range' 0 38 ++ [38], listing [initProcess] ++ [nulChar]⟩ : Listed) = r :=
    Except.ok.inj ((by decide +kernel : Except.ok _ =
      getCurrentProcesses 39 (fun _ => 'x') (fun _ => some fun _ => 'x') ⟨false, fun _ => true, 100⟩
        100 [initProcess]).trans hr)
  exact absurd (hbounded.written 38 (by simp)) (by decide)

end RtSched
