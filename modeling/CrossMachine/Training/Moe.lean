import CrossMachine.Lib.Pairwise
import CrossMachine.Collectives.Exchange
import CrossMachine.Training.Matrix

/-!
# Dispatch to experts

`moe_dispatch.h`. Every rank has one expert, and every row of a rank's matrix is to be put
through the expert of the rank it is assigned to. The ranks exchange how many rows they have
for each other, then the rows, apply their expert to all rows they have received, and send the
results back. Rows carry no number: that the results come back in the order in which the rows
were sent is all that tells them apart.

A word of the channel is an `int` or a `float`, four bytes either way.
-/

namespace CrossMachine.Training

open Lib Collectives

inductive Word (F : Type*) where
  | int (count : Nat)
  | float (x : F)

def Word.toFloat? {F : Type*} : Word F → Option F
  | .int _ => none
  | .float x => some x

variable {n : Nat} {F β : Type*} [Zero F]

/-! ## Buffers -/

/-- The rows at these indices, which have to be there. -/
def readRows {w : Nat} (rows : List (Vector F w)) (indices : List Nat)
    (k : List (Vector F w) → Proc (Fin n) (Word F) β) : Proc (Fin n) (Word F) β :=
  match indices.mapM fun i => rows[i]? with
  | some picked => k picked
  | none => .fault

/-- The `count` rows from `offset` on, which have to be there. -/
def takeRows {w : Nat} (rows : List (Vector F w)) (offset count : Nat)
    (k : List (Vector F w) → Proc (Fin n) (Word F) β) : Proc (Fin n) (Word F) β :=
  if offset + count ≤ rows.length then k ((rows.drop offset).take count) else .fault

/-- The buffer with these rows one behind the other. -/
def flattenRows {w : Nat} (rows : List (Vector F w)) : List (Word F) :=
  rows.flatMap fun row => row.toList.map .float

/-- The rows of a buffer. -/
def rowsOf (w count : Nat) (buf : List F) : List (Vector F w) :=
  (List.range count).map fun k => Vector.ofFn fun j : Fin w => buf.getD (k * w + j.val) 0

/-- What was received is read as an array of `float`s. -/
def asFloats (data : List (Word F)) (k : List F → Proc (Fin n) (Word F) β) :
    Proc (Fin n) (Word F) β :=
  match data.mapM Word.toFloat? with
  | some buf => k buf
  | none => .fault

/-- Each row is written to its index. -/
def writeRows {w : Nat} (output : List (Vector F w)) (indices : List Nat)
    (rows : List (Vector F w)) : List (Vector F w) :=
  (indices.zip rows).foldl (fun output p => output.set p.1 p.2) output

/-! ## Exchanges with one rank -/

/-- `if (!buf.empty()) channel.send`. -/
def sendUnlessEmpty (r : Nat) (data : List (Word F)) (k : Proc (Fin n) (Word F) β) :
    Proc (Fin n) (Word F) β :=
  if data.isEmpty then k else sendTo r data k

/-- `if (!buf.empty()) channel.recv`, for a buffer of `len` words. -/
def recvUnlessEmpty (r len : Nat) (k : List (Word F) → Proc (Fin n) (Word F) β) :
    Proc (Fin n) (Word F) β :=
  if len = 0 then k [] else recvFrom r len k

/-- The lower rank sends first. -/
def exchangeWith (me r : Nat) (data : List (Word F)) (len : Nat)
    (k : List (Word F) → Proc (Fin n) (Word F) β) : Proc (Fin n) (Word F) β :=
  if me < r then sendUnlessEmpty r data (recvUnlessEmpty r len k)
  else recvUnlessEmpty r len fun received => sendUnlessEmpty r data (k received)

/-! ## The three phases -/

/-- The indices of the rows for each rank. -/
def buckets (world : Nat) (destRank : List Nat) : List (List Nat) :=
  destRank.zipIdx.foldl (fun buckets p => buckets.modify p.1 (· ++ [p.2]))
    (List.replicate world [])

/-- Exchange the counts. -/
def countsBody (me : Nat) (sendCounts : List Nat) (r : Nat) (recvCounts : List Nat) :
    Proc (Fin n) (Word F) (List Nat) :=
  let count := sendCounts.getD r 0
  if r = me then .done (recvCounts ++ [count])
  else exchangeWith me r [.int count] 1 fun
    | [.int count'] => .done (recvCounts ++ [count'])
    | _ => .fault

/-- Exchange the rows. -/
def dispatchBody (me : Nat) (localX : Matrix F) (buckets : List (List Nat))
    (recvCounts : List Nat) (r : Nat) (received : List (Vector F localX.cols)) :
    Proc (Fin n) (Word F) (List (Vector F localX.cols)) :=
  readRows localX.rows (buckets.getD r []) fun rows =>
    if r = me then .done (received ++ rows)
    else
      let count := recvCounts.getD r 0
      exchangeWith me r (flattenRows rows) (count * localX.cols) fun data =>
        asFloats data fun recvBuf => .done (received ++ rowsOf localX.cols count recvBuf)

/-- Exchange the results. The state is `offset` and `output`. -/
def combineBody (me : Nat) (buckets : List (List Nat)) (sendCounts recvCounts : List Nat)
    (processed : Matrix F) (r : Nat) (s : Nat × List (Vector F processed.cols)) :
    Proc (Fin n) (Word F) (Nat × List (Vector F processed.cols)) :=
  let (offset, output) := s
  let bucket := buckets.getD r []
  if r = me then
    takeRows processed.rows offset bucket.length fun rows =>
      .done (offset + bucket.length, writeRows output bucket rows)
  else
    let count := recvCounts.getD r 0
    takeRows processed.rows offset count fun rows =>
      exchangeWith me r (flattenRows rows) (sendCounts.getD r 0 * processed.cols) fun data =>
        asFloats data fun replyRecv =>
          .done (offset + count,
            writeRows output bucket (rowsOf processed.cols bucket.length replyRecv))

/-- The last phase, once the expert has been applied. -/
def combine (n me : Nat) (buckets : List (List Nat)) (sendCounts recvCounts : List Nat)
    (numRows : Nat) (processed : Matrix F) : Proc (Fin n) (Word F) (Matrix F) :=
  let output := List.replicate numRows (Vector.replicate processed.cols 0)
  (Proc.forEach (combineBody me buckets sendCounts recvCounts processed) (List.range n)
    (0, output)).bind fun s => .done ⟨processed.cols, s.2⟩

/-- `moe_forward`. Rows are counted by naturals: those that one rank receives (`total_recv`), as
those that one rank sends to another, are taken to fit an `int`. -/
def moeForward (n me : Nat) (localX : Matrix F) (destRank : List Nat)
    (expertFn : Matrix F → Matrix F) : Proc (Fin n) (Word F) (Matrix F) :=
  if destRank.all (· < n) then
    let buckets := buckets n destRank
    let sendCounts := buckets.map List.length
    (Proc.forEach (countsBody me sendCounts) (List.range n) []).bind fun recvCounts =>
      (Proc.forEach (dispatchBody me localX buckets recvCounts) (List.range n) []).bind
        fun received =>
          combine n me buckets sendCounts recvCounts localX.rows.length
            (expertFn ⟨localX.cols, received⟩)
  else .fault

end CrossMachine.Training
