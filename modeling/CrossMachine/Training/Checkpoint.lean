import CrossMachine.Lib.Words
import Mathlib.Logic.Function.Basic

/-!
# Sharded checkpoints

A rank writes its shard to a file of its own: the number of floats as eight bytes, and then the
floats, four bytes each. `read_shard` checks what it can, that there is a header and as many
floats as it promises, so a file that a crash has cut short is refused at every cut.

`write_shard_sync` checks nothing after `fopen`. A write or a close that fails loses bytes
without a word, and the file that is left does not read back. `AsyncCheckpointWriter` has room
for one future, and a write that is started over a failed one takes its place.

A float is its four bytes and a number is written lowest byte first. What the calls into the
system do is given: whether `fopen` succeeds, how many bytes each `fwrite` takes and how many of
all of them are in the file once it is closed.
-/

namespace CrossMachine.Training.Checkpoint

open Lib Words

/-- `std::vector<float>::max_size()`. -/
def maxSize : Nat := 2 ^ 61 - 1

/-- A `std::vector<float>`. -/
structure Shard where
  floats : List UInt32
  fits : floats.length ≤ maxSize
  deriving DecidableEq

abbrev Files := String → Option (List UInt8)

/-- How the calls that write a file go. -/
structure Io where
  opens : Bool
  /-- Bytes that the first `fwrite` takes. -/
  header : Nat
  /-- Bytes that the second one takes. -/
  payload : Nat
  /-- Bytes that are in the file after `fclose`. -/
  kept : Nat
  deriving DecidableEq, Repr

def Shard.header (shard : Shard) : List UInt8 := toBytes 8 shard.floats.length

def Shard.payload (shard : Shard) : List UInt8 := encode 4 (shard.floats.map UInt32.toNat)

/-- What a shard is as a file. -/
def Shard.file (shard : Shard) : List UInt8 := shard.header ++ shard.payload

/-- What is in the file when it is closed. -/
def Io.written (io : Io) (shard : Shard) : List UInt8 :=
  let header := shard.header.take io.header
  let payload := if shard.floats.length > 0 then shard.payload.take io.payload else []
  (header ++ payload).take io.kept

/-- `write_shard_sync`. Only `fopen` is asked whether it succeeded. -/
def writeShardSync (io : Io) (path : String) (shard : Shard) (files : Files) :
    Except String Unit × Files :=
  if io.opens then (.ok (), Function.update files path (some (io.written shard)))
  else (.error ("write_shard_sync: failed to open " ++ path), files)

/-- `read_shard`. -/
def readShard (files : Files) (path : String) : Except String Shard :=
  match files path with
  | none => .error ("read_shard: failed to open " ++ path)
  | some file =>
      if file.length < 8 then .error "read_shard: truncated header"
      else
        let count := ofBytes (file.take 8)
        -- the constructor of the vector throws
        if h : maxSize < count then .error "cannot create std::vector larger than max_size()"
        else if count > 0 ∧ (file.drop 8).length < 4 * count then
          .error "read_shard: truncated data"
        else
          .ok ⟨(decode 4 count (file.drop 8)).map UInt32.ofNat, by
            rw [List.length_map, length_decode]; omega⟩

/-! ## Reading back -/

variable {io : Io} {shard shard' : Shard} {files : Files} {path : String} {file pre : List UInt8}

theorem Shard.length_lt (shard : Shard) : shard.floats.length < 256 ^ 8 :=
  Nat.lt_of_le_of_lt shard.fits (by norm_num [maxSize])

theorem Shard.length_header (shard : Shard) : shard.header.length = 8 :=
  length_toBytes shard.length_lt

theorem Shard.float_lt (shard : Shard) : ∀ v ∈ shard.floats.map UInt32.toNat, v < 256 ^ 4 := by
  intro v hv
  obtain ⟨x, -, rfl⟩ := List.mem_map.mp hv
  exact x.toNat_lt

theorem Shard.length_payload (shard : Shard) : shard.payload.length = 4 * shard.floats.length := by
  rw [Shard.payload, length_encode shard.float_lt, List.length_map]

theorem Shard.length_file (shard : Shard) :
    shard.file.length = 8 + 4 * shard.floats.length := by
  rw [Shard.file, List.length_append, shard.length_header, shard.length_payload]

theorem Shard.take_file (shard : Shard) : shard.file.take 8 = shard.header :=
  List.take_left' shard.length_header

theorem Shard.drop_file (shard : Shard) : shard.file.drop 8 = shard.payload :=
  List.drop_left' shard.length_header

theorem Shard.decode_payload (shard : Shard) :
    (decode 4 shard.floats.length shard.payload).map UInt32.ofNat = shard.floats := by
  have hback := decode_encode shard.float_lt []
  rw [List.append_nil, List.length_map] at hback
  rw [Shard.payload, hback, List.map_map]
  exact (List.map_congr_left fun x _ => UInt32.ofNat_toNat).trans (List.map_id _)

/-- The whole file reads back. -/
theorem readShard_file (h : files path = some shard.file) : readShard files path = .ok shard := by
  have hcount : ofBytes (shard.file.take 8) = shard.floats.length := by
    rw [shard.take_file]
    exact ofBytes_toBytes shard.length_lt
  have hdata := shard.drop_file
  have hlen := shard.length_payload
  unfold readShard
  rw [h]
  dsimp only
  rw [if_neg (by rw [shard.length_file]; omega), dif_neg (by rw [hcount]; exact shard.fits.not_gt),
    if_neg (by rw [hcount, hdata, hlen]; omega)]
  simp only [hcount, hdata, shard.decode_payload]

/-- What is read was in the file. -/
theorem length_of_readShard (hfile : files path = some file)
    (h : readShard files path = .ok shard) : 8 + 4 * shard.floats.length ≤ file.length := by
  unfold readShard at h
  rw [hfile] at h
  dsimp only at h
  split at h
  · cases h
  · split at h
    · cases h
    · split at h
      · cases h
      next hdata =>
        cases h
        rw [List.length_drop] at hdata
        rw [List.length_map, length_decode]
        omega

/-- A file that was cut short is refused, for its header or for its data. -/
theorem readShard_prefix (h : files path = some pre) (hpre : pre <+: shard.file)
    (hne : pre ≠ shard.file) :
    readShard files path = .error
      (if pre.length < 8 then "read_shard: truncated header"
        else "read_shard: truncated data") := by
  have hlt : pre.length < shard.file.length :=
    lt_of_le_of_ne hpre.length_le fun heq => hne (hpre.eq_of_length heq)
  rw [shard.length_file] at hlt
  unfold readShard
  rw [h]
  dsimp only
  by_cases hshort : pre.length < 8
  · rw [if_pos hshort, if_pos hshort]
  · -- the header is whole, and promises more than there is
    have hcount : ofBytes (pre.take 8) = shard.floats.length := by
      obtain ⟨rest, hrest⟩ := hpre
      have htake : pre.take 8 = shard.file.take 8 := by
        rw [← hrest, List.take_append_of_le_length (by omega)]
      rw [htake, shard.take_file]
      exact ofBytes_toBytes shard.length_lt
    rw [if_neg hshort, if_neg hshort, dif_neg (by rw [hcount]; exact shard.fits.not_gt), if_pos]
    rw [hcount, List.length_drop]
    omega

/-- Every call takes all its bytes. -/
def Io.all (shard : Shard) : Io :=
  ⟨true, 8, 4 * shard.floats.length, 8 + 4 * shard.floats.length⟩

/-- All bytes of the file are in it in the end. -/
def Io.Keeps (io : Io) (shard : Shard) : Prop :=
  8 ≤ io.header ∧ 4 * shard.floats.length ≤ io.payload ∧ 8 + 4 * shard.floats.length ≤ io.kept

instance (io : Io) (shard : Shard) : Decidable (io.Keeps shard) :=
  inferInstanceAs (Decidable (8 ≤ io.header ∧ 4 * shard.floats.length ≤ io.payload ∧
    8 + 4 * shard.floats.length ≤ io.kept))

theorem Io.written_of_keeps (h : io.Keeps shard) : io.written shard = shard.file := by
  obtain ⟨hheader, hpayload, hkept⟩ := h
  have hdata : (if shard.floats.length > 0 then shard.payload.take io.payload else []) =
      shard.payload := by
    split
    · exact List.take_of_length_le (by rw [shard.length_payload]; exact hpayload)
    · exact (List.length_eq_zero_iff.mp (by rw [shard.length_payload]; omega)).symm
  have hhead : shard.header.take io.header = shard.header :=
    List.take_of_length_le (by rw [shard.length_header]; exact hheader)
  unfold Io.written
  rw [hdata, hhead]
  exact List.take_of_length_le (shard.length_file ▸ hkept)

theorem Io.length_written_lt (h : ¬ io.Keeps shard) :
    (io.written shard).length < 8 + 4 * shard.floats.length := by
  have hpayload : (if shard.floats.length > 0 then shard.payload.take io.payload else []).length =
      min io.payload (4 * shard.floats.length) := by
    split
    · rw [List.length_take, shard.length_payload]
    · simp only [List.length_nil]
      omega
  unfold Io.Keeps at h
  unfold Io.written
  rw [List.length_take, List.length_append, List.length_take, shard.length_header, hpayload]
  omega

/-- **A shard reads back, and a cut is noticed.** The file that `write_shard_sync` writes in full
reads back as the shard, and every strict prefix of it makes `read_shard` throw. -/
theorem readShard_writeShardSync (shard : Shard) (files : Files) (path : String) :
    ∃ files' file, writeShardSync (Io.all shard) path shard files = (.ok (), files') ∧
      files' path = some file ∧ readShard files' path = .ok shard ∧
      ∀ pre, pre <+: file → pre ≠ file → ∃ what,
        readShard (Function.update files' path (some pre)) path = .error what := by
  have hkeeps : (Io.all shard).Keeps shard := ⟨le_rfl, le_rfl, le_rfl⟩
  have hfile : Function.update files path (some ((Io.all shard).written shard)) path =
      some shard.file := by
    rw [Function.update_self, Io.written_of_keeps hkeeps]
  exact ⟨_, shard.file, rfl, hfile, readShard_file hfile, fun pre hpre hne =>
    ⟨_, readShard_prefix (Function.update_self ..) hpre hne⟩⟩

/-- A write that returns has left the shard behind exactly when no byte was lost. -/
theorem durable_iff (io : Io) (shard : Shard) (files : Files) (path : String) :
    ((writeShardSync io path shard files).1 = .ok () →
        readShard (writeShardSync io path shard files).2 path = .ok shard) ↔
      (io.opens = true → io.Keeps shard) := by
  unfold writeShardSync
  by_cases hopens : io.opens = true
  · rw [if_pos hopens]
    have hfile : Function.update files path (some (io.written shard)) path =
        some (io.written shard) := Function.update_self ..
    constructor
    · intro hread _
      -- a shard is as long as the file that it was read from promises
      by_contra hlost
      have hlong := length_of_readShard hfile (hread rfl)
      have hshort := Io.length_written_lt hlost
      omega
    · intro hkeeps _
      rw [Io.written_of_keeps (hkeeps hopens)] at hfile ⊢
      exact readShard_file hfile
  · rw [if_neg hopens]
    exact ⟨fun _ h => absurd h hopens, fun _ h => by cases h⟩

/-! ## Writing in the background -/

/-- A write that `start_write` hands to a thread. -/
structure Task where
  io : Io
  path : String
  shard : Shard
  deriving DecidableEq

/-- How the thread ends. What is on disk before does not matter. -/
def Task.outcome (task : Task) : Except String Unit :=
  (writeShardSync task.io task.path task.shard fun _ => none).1

/-- `AsyncCheckpointWriter`. A future knows which call has started it. -/
structure AsyncCheckpointWriter where
  future : Option (Nat × Except String Unit) := none

namespace AsyncCheckpointWriter

/-- `start_write`, as call number `n`. The future that was there is dropped, with its result. -/
def startWrite (_w : AsyncCheckpointWriter) (n : Nat) (task : Task) : AsyncCheckpointWriter :=
  { future := some (n, task.outcome) }

/-- `wait`: the write whose exception it throws, and the exception. -/
def wait (w : AsyncCheckpointWriter) : Option (Nat × String) × AsyncCheckpointWriter :=
  match w.future with
  | some (n, .error what) => (some (n, what), { future := none })
  | _ => (none, { future := none })

end AsyncCheckpointWriter

inductive Call where
  | startWrite (task : Task)
  | wait
  deriving DecidableEq

/-- The writes that some `wait` reports, where the calls are numbered from `n` on. -/
def reports (w : AsyncCheckpointWriter) (n : Nat) : List Call → List Nat
  | [] => []
  | .startWrite task :: rest => reports (w.startWrite n task) (n + 1) rest
  | .wait :: rest => (w.wait.1.map Prod.fst).toList ++ reports w.wait.2 (n + 1) rest

variable {w : AsyncCheckpointWriter} {n m : Nat} {task : Task} {calls : List Call}

/-- A write has failed when its file does not hold the shard. -/
def Task.Failed (task : Task) : Prop := ¬ (task.io.opens = true ∧ task.io.Keeps task.shard)

theorem outcome_eq_error : (∃ what, task.outcome = .error what) ↔ task.io.opens = false := by
  unfold Task.outcome writeShardSync
  by_cases hopens : task.io.opens = true <;> simp [hopens]

/-- A write is reported exactly when it throws and the next call is a `wait`. -/
theorem mem_reports :
    m ∈ reports w n calls ↔
      ((∃ what, w.future = some (m, .error what)) ∧ calls[0]? = some .wait) ∨
        ∃ (i : Nat) (task : Task), m = n + i ∧ calls[i]? = some (.startWrite task) ∧
          task.io.opens = false ∧ calls[i + 1]? = some .wait := by
  induction calls generalizing w n with
  | nil => simp [reports]
  | cons c rest ih =>
      -- what happens behind the first call is at a later position
      have hlater : (∃ (i : Nat) (task : Task), m = n + 1 + i ∧ rest[i]? = some (.startWrite task) ∧
          task.io.opens = false ∧ rest[i + 1]? = some .wait) ↔
          ∃ (i : Nat) (task : Task), m = n + (i + 1) ∧
            (c :: rest)[i + 1]? = some (.startWrite task) ∧ task.io.opens = false ∧
            (c :: rest)[i + 1 + 1]? = some .wait := by
        simp only [List.getElem?_cons_succ, Nat.add_assoc, Nat.add_comm 1]
      cases c with
      | startWrite task =>
          rw [reports, ih, hlater]
          have hfuture : (∃ what, (w.startWrite n task).future = some (m, .error what)) ↔
              m = n ∧ task.io.opens = false := by
            rw [← outcome_eq_error]
            simp only [AsyncCheckpointWriter.startWrite, Option.some.injEq, Prod.mk.injEq,
              exists_and_left, eq_comm]
          rw [hfuture]
          constructor
          · rintro (⟨⟨rfl, hopens⟩, hwait⟩ | ⟨i, task', h⟩)
            · exact .inr ⟨0, task, rfl, rfl, hopens, by simpa using hwait⟩
            · exact .inr ⟨i + 1, task', h⟩
          · rintro (⟨-, hwait⟩ | ⟨i, task', hm, hcall, hopens, hwait⟩)
            · cases hwait
            · cases i with
              | zero =>
                  cases hcall
                  exact .inl ⟨⟨hm, hopens⟩, by simpa using hwait⟩
              | succ i => exact .inr ⟨i, task', hm, hcall, hopens, hwait⟩
      | wait =>
          rw [reports, List.mem_append, ih, hlater]
          have hthrown : m ∈ (w.wait.1.map Prod.fst).toList ↔
              ∃ what, w.future = some (m, .error what) := by
            unfold AsyncCheckpointWriter.wait
            split
            next k what heq => simp [heq, eq_comm]
            next hnone =>
              simp only [Option.map_none, Option.toList_none, List.not_mem_nil, false_iff]
              rintro ⟨what, heq⟩
              exact hnone m what heq
          have hempty : ¬ ∃ what, w.wait.2.future = some (m, .error what) := by
            unfold AsyncCheckpointWriter.wait
            split <;> simp
          rw [hthrown]
          constructor
          · rintro (hpending | ⟨hpending, -⟩ | ⟨i, task', h⟩)
            · exact .inl ⟨hpending, rfl⟩
            · exact absurd hpending hempty
            · exact .inr ⟨i + 1, task', h⟩
          · rintro (⟨hpending, -⟩ | ⟨i, task', hm, hcall, h⟩)
            · exact .inl hpending
            · cases i with
              | zero => cases hcall
              | succ i => exact .inr (.inr ⟨i, task', hm, hcall, h⟩)

/-- Every failed write is reported exactly when every one fails to open its file and is waited
for at once. -/
theorem reports_iff (calls : List Call) :
    (∀ (n : Nat) task, calls[n]? = some (.startWrite task) → task.Failed → n ∈ reports {} 0 calls) ↔
      ∀ (n : Nat) task, calls[n]? = some (.startWrite task) → task.Failed →
        task.io.opens = false ∧ calls[n + 1]? = some .wait := by
  refine forall_congr' fun n => forall_congr' fun task => forall_congr' fun hcall =>
    forall_congr' fun _ => ?_
  rw [mem_reports]
  constructor
  · rintro (⟨⟨_, hnone⟩, -⟩ | ⟨i, task', hn, hcall', hrest⟩)
    · cases hnone
    · rw [Nat.zero_add] at hn
      subst hn
      rw [hcall] at hcall'
      cases hcall'
      exact hrest
  · rintro ⟨hopens, hwait⟩
    exact .inr ⟨n, task, (Nat.zero_add n).symm, hcall, hopens, hwait⟩

/-- **What is reported of a failure.** A `write_shard_sync` that returns has left the shard
behind exactly when no byte was lost after `fopen`, and `AsyncCheckpointWriter` reports every
failed write exactly when each of them is one that cannot open its file and the next call
is `wait`. -/
theorem durability_report (io : Io) (shard : Shard) (files : Files) (path : String)
    (calls : List Call) :
    (((writeShardSync io path shard files).1 = .ok () →
        readShard (writeShardSync io path shard files).2 path = .ok shard) ↔
      (io.opens = true → io.Keeps shard)) ∧
    ((∀ (n : Nat) task, calls[n]? = some (.startWrite task) → task.Failed →
        n ∈ reports {} 0 calls) ↔
      ∀ (n : Nat) task, calls[n]? = some (.startWrite task) → task.Failed →
        task.io.opens = false ∧ calls[n + 1]? = some .wait) :=
  ⟨durable_iff io shard files path, reports_iff calls⟩

/-- One float. -/
def one : Shard := ⟨[0], by decide⟩

/-- The disk is full: the header gets through, the float does not. And a write that fails to open
its file is lost when the next one starts before the wait. -/
theorem failures_lost :
    (∃ files, writeShardSync ⟨true, 8, 0, 8⟩ "rank0" one (fun _ => none) = (.ok (), files) ∧
      readShard files "rank0" ≠ .ok one) ∧
    ∃ lost kept : Task, lost.Failed ∧
      0 ∉ reports {} 0 [.startWrite lost, .startWrite kept, .wait] := by
  refine ⟨⟨_, rfl, fun hread => ?_⟩, ⟨⟨false, 0, 0, 0⟩, "rank0", one⟩,
    ⟨⟨true, 8, 4, 12⟩, "rank0", one⟩, fun h => absurd h.1 (by decide), ?_⟩
  · have hlong := length_of_readShard (Function.update_self ..) hread
    have hlost : ¬ (⟨true, 8, 0, 8⟩ : Io).Keeps one := by decide
    have hshort := Io.length_written_lt hlost
    omega
  · rw [mem_reports]
    rintro (⟨⟨_, hnone⟩, -⟩ | ⟨i, task, hi, -, -, hwait⟩)
    · cases hnone
    · obtain rfl : i = 0 := by omega
      cases hwait

end CrossMachine.Training.Checkpoint
