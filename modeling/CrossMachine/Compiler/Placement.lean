import CrossMachine.Compiler.Tree
import Mathlib.Algebra.Order.Field.Rat
import Mathlib.Algebra.BigOperators.Group.List.Basic
import Mathlib.Tactic.NormNum

/-!
# Device placement and the transfers it inserts

`PlacementPass` walks a function, nested operations before their parents, gives every
operation that has a cost key the device of the least estimated cost, and puts a
`runtime.transfer` in front of each of its operands that it believes to be elsewhere. What it
believes is `deviceOf`: the device given to the operation that defines the value, and the CPU
for everything else, be it an argument of the function, an argument of the block of a region
or a result of an operation that has no cost key.

A transfer has the one use it was created for, so it is written at that use.

`Resident` says what the transfers are for: every operation reads values of its own device
only, and a transfer reads from the device it names. An operation without a cost key is where
it was bound (a transfer's destination, the device of a kernel call, a device it came with);
otherwise it runs with the operation it is nested in, and on the host at the top. The block of
a region gets its arguments where the operation of the region is.

Whether the pass brings this about is a question about the function and the cost model. The model
gives every operation the device that is cheapest after those given before (`Cheapest`). With the
operations on these devices, the transfers are right exactly when what the pass believes of each
operand is true and the operations it skips read from where they are (`Seen`).
-/

namespace CrossMachine.Compiler.Placement

/-! ## Costs -/

inductive OpType
  | matmul
  | conv
  | elementwise
  | reduce
  | transfer
  deriving DecidableEq, Repr

structure Shape where
  batch : Nat
  m : Nat
  n : Nat
  k : Nat
  deriving DecidableEq, Repr

structure DeviceCost where
  flopsPerSec : ℚ
  memBandwidthGbs : ℚ
  launchOverheadUs : ℚ
  transferInGbs : ℚ
  transferOutGbs : ℚ

/-- `get_device_cost`. -/
def getDeviceCost : DeviceKind → DeviceCost
  | .cpu => ⟨2000000000000, 50, 1, 50, 50⟩
  | .gpu => ⟨19500000000000, 2039, 5, 25, 25⟩
  | .fpga => ⟨4100000000000, 77, 50, 12, 12⟩
  | .tpu => ⟨275000000000000, 1200, 10, 100, 100⟩
  | .npu => ⟨15800000000000, 68, 1 / 20, 200, 200⟩
  | .unassigned => ⟨0, 0, 0, 0, 0⟩

def flops : OpType → Shape → ℚ
  | .matmul, s | .conv, s => 2 * s.batch * s.m * s.n * s.k
  | .elementwise, s | .reduce, s => s.batch * s.m * s.n
  | .transfer, _ => 0

def kBytesPerElement : ℚ := 4

def bytesMoved : OpType → Shape → ℚ
  | .matmul, s | .conv, s => kBytesPerElement * s.batch * (s.m * s.k + s.k * s.n + s.m * s.n)
  | .elementwise, s => kBytesPerElement * 2 * s.batch * s.m * s.n
  | .reduce, s | .transfer, s => kBytesPerElement * s.batch * s.m * s.n

/-- `estimate_us`, over exact arithmetic. -/
def estimateUs (op : OpType) (shape : Shape) (cost : DeviceCost) : ℚ :=
  let gb := bytesMoved op shape / 1000000000
  if op = .transfer then
    gb / max cost.transferInGbs (1 / 1000000000) * 1000000 + cost.launchOverheadUs
  else
    let computeUs := flops op shape / max cost.flopsPerSec 1 * 1000000
    let memoryUs := gb / max cost.memBandwidthGbs (1 / 1000000000) * 1000000
    max computeUs memoryUs + cost.launchOverheadUs

/-! ## What the pass places -/

def shapeOf (ty : Ty) : Shape :=
  match ty.static? with
  | none | some ([], _) => ⟨1, 1, 1, 1⟩
  | some ([d], _) => ⟨1, d, 1, 1⟩
  | some (dims, _) =>
      let rank := dims.length
      let cols := dims.getD (rank - 1) 0
      ⟨(dims.take (rank - 2)).prod, dims.getD (rank - 2) 0, cols, cols⟩

/-- The shapes of the first two operands, if they are static. -/
def staticPair (o : TOp) : Option (List Nat × List Nat) :=
  match o.operands with
  | a :: b :: _ =>
      match a.ty.static?, b.ty.static? with
      | some (l, _), some (r, _) => some (l, r)
      | _, _ => none
  | _ => none

/-- The type of the first result. -/
def resultShape (o : TOp) : Shape := (o.results.head?.map shapeOf).getD ⟨1, 1, 1, 1⟩

/-- `costKeyFor`: none for an operation that the pass does not place. -/
def costKeyFor (o : TOp) : Option (OpType × Shape) :=
  match o.kind with
  | .matmul => (staticPair o).map fun (l, r) =>
      (.matmul, ⟨(l.take (l.length - 2)).prod, l.getD (l.length - 2) 0, r.getD (r.length - 1) 0,
        l.getD (l.length - 1) 0⟩)
  | .conv => some (.conv, resultShape o)
  | .add | .mul | .sub | .relu | .gelu | .sigmoid | .softmax => some (.elementwise, resultShape o)
  | .reduce => some (.reduce, (o.operands.head?.map fun v => shapeOf v.ty).getD ⟨1, 1, 1, 1⟩)
  | .fusionGroup _ => (staticPair o).map fun (l, r) =>
      (.matmul, ⟨1, l.getD (l.length - 2) 0, r.getD (r.length - 1) 0, l.getD (l.length - 1) 0⟩)
  | _ => none

/-- `assigned`: the devices given so far, by operation. -/
abbrev Assigned := List (Nat × DeviceKind)

/-- `deviceOf`. A value without a defining operation is on the CPU, and so is one whose
defining operation is not in the map: zero is the CPU. -/
def deviceOf (assigned : Assigned) (v : Value) : DeviceKind :=
  match v.ref with
  | .arg _ => .cpu
  | .res op _ => (assigned.lookup op).getD .cpu

def kCandidates : List DeviceKind := [.cpu, .gpu, .fpga, .tpu, .npu]

def npuEligibleOp (o : TOp) : Bool :=
  match o.kind with
  | .gather | .scatter => false
  | _ => true

/-- The cost of an operation on a candidate: its own, and that of the transfers in. -/
def candidateCost (assigned : Assigned) (o : TOp) (key : OpType × Shape) (candidate : DeviceKind) :
    ℚ :=
  o.operands.foldl
    (fun cost operand =>
      if deviceOf assigned operand = candidate then cost
      else cost + estimateUs .transfer (shapeOf operand.ty) (getDeviceCost candidate))
    (estimateUs key.1 key.2 (getDeviceCost candidate))

/-- The loop over the candidates. The cost to beat is infinite before the first. -/
def bestDevice (assigned : Assigned) (o : TOp) (key : OpType × Shape) : DeviceKind :=
  (kCandidates.foldl
    (fun (best : DeviceKind × Option ℚ) candidate =>
      if candidate = .npu ∧ npuEligibleOp o = false then best
      else
        let cost := candidateCost assigned o key candidate
        if best.2.all (cost < ·) then (candidate, some cost) else best)
    (.cpu, none)).1

/-! ## The pass -/

/-- An operand after the pass: as it was, or through a new transfer. -/
inductive Use
  | direct (v : Value)
  | transferred (src dst : DeviceKind) (v : Value)
  deriving DecidableEq, Repr

inductive POp
  | mk (id : Nat) (kind : TKind) (device : Option DeviceKind) (operands : List Use)
      (results : List Ty) (blocks : List Nat) (body : List POp)

/-- The operand of an operation that was given the device `chosen`. -/
def reach (assigned : Assigned) (chosen : DeviceKind) (v : Value) : Use :=
  if deviceOf assigned v = chosen then .direct v
  else .transferred (deviceOf assigned v) chosen v

mutual

/-- The loop over the operations of the walk. -/
def placeOp (assigned : Assigned) : TOp → Assigned × POp
  | .mk id kind device operands results blocks body =>
      let o := TOp.mk id kind device operands results blocks body
      let (assigned, body) := placeOps assigned body
      match costKeyFor o with
      | none => (assigned, .mk id kind device (operands.map .direct) results blocks body)
      | some key =>
          let chosen := bestDevice assigned o key
          let assigned := (id, chosen) :: assigned
          (assigned,
            .mk id kind (some chosen) (operands.map (reach assigned chosen)) results blocks body)

def placeOps (assigned : Assigned) : List TOp → Assigned × List POp
  | [] => (assigned, [])
  | o :: ops =>
      let (assigned, o) := placeOp assigned o
      let (assigned, ops) := placeOps assigned ops
      (assigned, o :: ops)

end

/-- `runOnOperation`. -/
def placementPass (f : TOp) : POp := (placeOp [] f).2

/-! ## Where values are -/

/-- The device of an operation, given that of the operation it is nested in. -/
def deviceOn (enclosing : DeviceKind) (kind : TKind) (device : Option DeviceKind) : DeviceKind :=
  match kind with
  | .transfer _ dst => dst
  | .kernelCall _ d => d
  | _ => device.getD enclosing

/-- The device that an operation reads from. -/
def readsFrom (kind : TKind) (here : DeviceKind) : DeviceKind :=
  match kind with
  | .transfer src _ => src
  | _ => here

mutual

/-- The devices of the values that an operation and those in its regions define, by
operation and by block. -/
def homes (enclosing : DeviceKind) : POp → List (Nat × DeviceKind)
  | .mk id kind device _ _ blocks body =>
      let here := deviceOn enclosing kind device
      (id, here) :: blocks.map (fun b => (b, here)) ++ homesIn here body

def homesIn (enclosing : DeviceKind) : List POp → List (Nat × DeviceKind)
  | [] => []
  | o :: ops => homes enclosing o ++ homesIn enclosing ops

end

/-- Where a value is: the arguments of the function are on the host. -/
def home (table : List (Nat × DeviceKind)) (v : Value) : DeviceKind :=
  match v.ref with
  | .arg _ => .cpu
  | .res op _ => (table.lookup op).getD .cpu

/-- The operand is on the device it is read from, or comes from where its transfer says. -/
def Use.Local (table : List (Nat × DeviceKind)) (reads : DeviceKind) : Use → Prop
  | .direct v => home table v = reads
  | .transferred src dst v => home table v = src ∧ dst = reads

instance (table : List (Nat × DeviceKind)) (reads : DeviceKind) :
    (u : Use) → Decidable (u.Local table reads)
  | .direct v => inferInstanceAs (Decidable (home table v = reads))
  | .transferred src dst v => inferInstanceAs (Decidable (home table v = src ∧ dst = reads))

mutual

def ResidentOp (table : List (Nat × DeviceKind)) (enclosing : DeviceKind) : POp → Prop
  | .mk _ kind device operands _ _ body =>
      let here := deviceOn enclosing kind device
      ResidentOps table here body ∧
        ∀ u ∈ operands, u.Local table (readsFrom kind here)

def ResidentOps (table : List (Nat × DeviceKind)) (enclosing : DeviceKind) : List POp → Prop
  | [] => True
  | o :: ops => ResidentOp table enclosing o ∧ ResidentOps table enclosing ops

end

mutual

def decidableResidentOp (table : List (Nat × DeviceKind)) (enclosing : DeviceKind) :
    (o : POp) → Decidable (ResidentOp table enclosing o)
  | .mk _ kind device operands _ _ body =>
      have := decidableResidentOps table (deviceOn enclosing kind device) body
      decidable_of_iff (ResidentOps table (deviceOn enclosing kind device) body ∧
        ∀ u ∈ operands, u.Local table (readsFrom kind (deviceOn enclosing kind device)))
        (by rw [ResidentOp])

def decidableResidentOps (table : List (Nat × DeviceKind)) (enclosing : DeviceKind) :
    (ops : List POp) → Decidable (ResidentOps table enclosing ops)
  | [] => .isTrue trivial
  | o :: ops =>
      have := decidableResidentOp table enclosing o
      have := decidableResidentOps table enclosing ops
      decidable_of_iff (ResidentOp table enclosing o ∧ ResidentOps table enclosing ops)
        (by rw [ResidentOps])

end

/-- No operation of the function reads a value of another device but through a transfer that
names the two devices. -/
def Resident (f : POp) : Prop := ResidentOp (homes .cpu f) .cpu f

instance (f : POp) : Decidable (Resident f) := decidableResidentOp (homes .cpu f) .cpu f

/-! ## The devices of the cost model -/

mutual

/-- The operations placed after a walk. -/
def placedAfter (placed : List Nat) : TOp → List Nat
  | .mk id kind device operands results blocks body =>
      let placed := placedAfterAll placed body
      if (costKeyFor (.mk id kind device operands results blocks body)).isSome then id :: placed
      else placed

def placedAfterAll (placed : List Nat) : List TOp → List Nat
  | [] => placed
  | o :: ops => placedAfterAll (placedAfter placed o) ops

end

/-- The map after some operations were placed on the devices `a`. -/
def known (a : Nat → DeviceKind) (placed : List Nat) : Assigned := placed.map fun i => (i, a i)

section

variable (a : Nat → DeviceKind)

mutual

/-- Every operation that is placed is on the device that the cost model gives it, after the
operations before it in the walk. -/
def CheapestOp (placed : List Nat) : TOp → Prop
  | .mk id kind device operands results blocks body =>
      CheapestOps placed body ∧
        ∀ key ∈ costKeyFor (.mk id kind device operands results blocks body),
          a id = bestDevice (known a (placedAfterAll placed body))
            (.mk id kind device operands results blocks body) key

def CheapestOps (placed : List Nat) : List TOp → Prop
  | [] => True
  | o :: ops => CheapestOp placed o ∧ CheapestOps (placedAfter placed o) ops

end

/-- Where an operation is. -/
def placedOn (enclosing : DeviceKind) (o : TOp) : DeviceKind :=
  if (costKeyFor o).isSome then a o.id else deviceOn enclosing o.kind o.device

mutual

/-- `homes`, of the function that is placed on these devices. -/
def homesUnder (enclosing : DeviceKind) : TOp → List (Nat × DeviceKind)
  | .mk id kind device operands results blocks body =>
      let here := placedOn a enclosing (.mk id kind device operands results blocks body)
      (id, here) :: blocks.map (fun b => (b, here)) ++ homesUnderIn here body

def homesUnderIn (enclosing : DeviceKind) : List TOp → List (Nat × DeviceKind)
  | [] => []
  | o :: ops => homesUnder enclosing o ++ homesUnderIn enclosing ops

end

variable (table : List (Nat × DeviceKind))

mutual

/-- For an operation that is placed, what the pass believes of its operands is so; one that is
not reads from where it is. -/
def SeenOp (enclosing : DeviceKind) (placed : List Nat) : TOp → Prop
  | .mk id kind device operands results blocks body =>
      let here := placedOn a enclosing (.mk id kind device operands results blocks body)
      SeenOps here placed body ∧
        if (costKeyFor (.mk id kind device operands results blocks body)).isSome then
          ∀ v ∈ operands, home table v = deviceOf (known a (id :: placedAfterAll placed body)) v
        else ∀ v ∈ operands, home table v = readsFrom kind here

def SeenOps (enclosing : DeviceKind) (placed : List Nat) : List TOp → Prop
  | [] => True
  | o :: ops =>
      SeenOp enclosing placed o ∧ SeenOps enclosing (placedAfter placed o) ops

end

end

/-- The devices are those of the cost model. -/
def Cheapest (a : Nat → DeviceKind) (f : TOp) : Prop := CheapestOp a [] f

/-- On these devices, what the pass believes of the operands of each operation is true, and what
it skips reads from where it is. -/
def Seen (a : Nat → DeviceKind) (f : TOp) : Prop := SeenOp a (homesUnder a .cpu f) .cpu [] f

/-! ## The pass on these devices -/

variable {a b : Nat → DeviceKind}

/-- A placed operation is on its device and reads from there. -/
theorem deviceOn_placed {o : TOp} (h : (costKeyFor o).isSome) (e d : DeviceKind) :
    deviceOn e o.kind (some d) = d ∧ readsFrom o.kind d = d := by
  cases hkind : o.kind with
  | transfer src dst => simp [costKeyFor, hkind] at h
  | kernelCall callee d' => simp [costKeyFor, hkind] at h
  | _ => exact ⟨rfl, rfl⟩

/-- The new operand of a placed operation is right if and only if the value is where the pass
believes it to be. -/
theorem reach_local (table : List (Nat × DeviceKind)) (assigned : Assigned) (d : DeviceKind)
    (v : Value) :
    (reach assigned d v).Local table d ↔ home table v = deviceOf assigned v := by
  rw [reach]
  split
  case isTrue h => rw [h]; rfl
  case isFalse h => exact and_iff_left rfl

variable (table : List (Nat × DeviceKind))

mutual

/-- Placing an operation puts it on the map, puts its values where they are to be, and leaves it
with local operands if and only if what was believed of them was so. -/
theorem placeOp_cheapest (e : DeviceKind) (placed : List Nat) : (o : TOp) →
    CheapestOp a placed o →
    (placeOp (known a placed) o).1 = known a (placedAfter placed o) ∧
      homes e (placeOp (known a placed) o).2 = homesUnder a e o ∧
      (ResidentOp table e (placeOp (known a placed) o).2 ↔ SeenOp a table e placed o)
  | .mk id kind device operands results blocks body => fun h => by
      rw [CheapestOp] at h
      obtain ⟨hbody, hcheapest⟩ := h
      rw [placeOp, placedAfter, homesUnder, SeenOp]
      obtain ⟨hknown, hhomes, hresident⟩ := placeOps_cheapest
        (placedOn a e (.mk id kind device operands results blocks body)) placed body hbody
      cases hkey : costKeyFor (.mk id kind device operands results blocks body) with
      | none =>
          have hhere : placedOn a e (.mk id kind device operands results blocks body) =
              deviceOn e kind device := by
            rw [placedOn, hkey]
            rfl
          rw [hhere] at hhomes hresident ⊢
          simp only [Option.isSome_none, Bool.false_eq_true, if_false, hknown, homes, ResidentOp,
            hhomes, hresident, List.forall_mem_map, Use.Local]
          trivial
      | some key =>
          have hhere : placedOn a e (.mk id kind device operands results blocks body) = a id := by
            rw [placedOn, hkey]
            rfl
          obtain ⟨hon, hreads⟩ := deviceOn_placed
            (o := .mk id kind device operands results blocks body) (by rw [hkey]; rfl) e (a id)
          have hon : deviceOn e kind (some (a id)) = a id := hon
          have hreads : readsFrom kind (a id) = a id := hreads
          rw [hhere] at hhomes hresident ⊢
          simp only [Option.isSome_some, if_true, hknown, ← hcheapest key hkey, homes, ResidentOp,
            hon, hreads, hhomes, hresident, List.forall_mem_map, reach_local]
          exact ⟨rfl, trivial, Iff.rfl⟩

theorem placeOps_cheapest (e : DeviceKind) (placed : List Nat) : (ops : List TOp) →
    CheapestOps a placed ops →
    (placeOps (known a placed) ops).1 = known a (placedAfterAll placed ops) ∧
      homesIn e (placeOps (known a placed) ops).2 = homesUnderIn a e ops ∧
      (ResidentOps table e (placeOps (known a placed) ops).2 ↔ SeenOps a table e placed ops)
  | [] => fun _ => ⟨rfl, rfl, Iff.rfl⟩
  | o :: ops => fun h => by
      rw [CheapestOps] at h
      rw [placeOps, placedAfterAll, homesUnderIn, SeenOps]
      obtain ⟨hknown, hhomes, hresident⟩ := placeOp_cheapest e placed o h.1
      obtain ⟨hknown', hhomes', hresident'⟩ := placeOps_cheapest e (placedAfter placed o) ops h.2
      simp only [hknown, homesIn, ResidentOps, hhomes, hhomes', hknown', hresident, hresident']
      trivial

end

theorem resident_iff_seen {f : TOp} (h : Cheapest a f) : Resident (placementPass f) ↔ Seen a f := by
  obtain ⟨-, hhomes, hresident⟩ := placeOp_cheapest (homesUnder a .cpu f) .cpu [] f h
  rw [Resident]
  exact hhomes ▸ hresident

/-! ## There are such devices -/

mutual

/-- The ids of an operation and of those in its regions. -/
def opIds : TOp → List Nat
  | .mk id _ _ _ _ _ body => id :: opIdsIn body

def opIdsIn : List TOp → List Nat
  | [] => []
  | o :: ops => opIds o ++ opIdsIn ops

end

mutual

theorem mem_placedAfter {i : Nat} (placed : List Nat) : (o : TOp) → i ∈ placedAfter placed o →
    i ∈ placed ∨ i ∈ opIds o
  | .mk id kind device operands results blocks body => fun h => by
      have hbody := mem_placedAfterAll (i := i) placed body
      rw [placedAfter] at h
      rw [opIds, List.mem_cons]
      split at h
      · rcases List.mem_cons.mp h with rfl | h
        · exact .inr (.inl rfl)
        · exact (hbody h).imp_right .inr
      · exact (hbody h).imp_right .inr

theorem mem_placedAfterAll {i : Nat} (placed : List Nat) : (ops : List TOp) →
    i ∈ placedAfterAll placed ops → i ∈ placed ∨ i ∈ opIdsIn ops
  | [] => .inl
  | o :: ops => fun h => by
      rw [opIdsIn, List.mem_append]
      rcases mem_placedAfterAll (placedAfter placed o) ops h with h | h
      · exact (mem_placedAfter placed o h).imp_right .inl
      · exact .inr (.inr h)

end

theorem known_congr {placed : List Nat} (h : ∀ i ∈ placed, a i = b i) :
    known a placed = known b placed :=
  List.map_congr_left fun i hi => by rw [h i hi]

mutual

/-- The devices of other operations do not matter. -/
theorem cheapestOp_congr (placed : List Nat) (hplaced : ∀ i ∈ placed, a i = b i) : (o : TOp) →
    (∀ i ∈ opIds o, a i = b i) → CheapestOp a placed o → CheapestOp b placed o
  | .mk id kind device operands results blocks body => fun hids h => by
      rw [opIds, List.forall_mem_cons] at hids
      rw [CheapestOp] at h ⊢
      refine ⟨cheapestOps_congr placed hplaced body hids.2 h.1, fun key hkey => ?_⟩
      rw [← hids.1, h.2 key hkey, known_congr fun i hi => ?_]
      exact (mem_placedAfterAll placed body hi).elim (hplaced i) (hids.2 i)

theorem cheapestOps_congr (placed : List Nat) (hplaced : ∀ i ∈ placed, a i = b i) :
    (ops : List TOp) → (∀ i ∈ opIdsIn ops, a i = b i) → CheapestOps a placed ops →
    CheapestOps b placed ops
  | [] => fun _ h => h
  | o :: ops => fun hids h => by
      rw [opIdsIn, List.forall_mem_append] at hids
      rw [CheapestOps] at h ⊢
      refine ⟨cheapestOp_congr placed hplaced o hids.1 h.1,
        cheapestOps_congr _ (fun i hi => ?_) ops hids.2 h.2⟩
      exact (mem_placedAfter placed o hi).elim (hplaced i) (hids.1 i)

end

mutual

/-- The devices of the operations that come can be found one after the other: different operations
have different ids. -/
theorem exists_cheapestOp (a : Nat → DeviceKind) (placed : List Nat) : (o : TOp) →
    (opIds o).Nodup → (∀ i ∈ placed, i ∉ opIds o) →
    ∃ b, (∀ i, i ∉ opIds o → b i = a i) ∧ CheapestOp b placed o
  | .mk id kind device operands results blocks body => fun hnodup hnew => by
      obtain ⟨hid, hbody⟩ := List.nodup_cons.mp hnodup
      simp only [opIds, List.mem_cons, not_or] at hnew ⊢
      obtain ⟨b, hb, hcheapest⟩ :=
        exists_cheapestOps a placed body hbody fun i hi => (hnew i hi).2
      let o := TOp.mk id kind device operands results blocks body
      let d := ((costKeyFor o).map (bestDevice (known b (placedAfterAll placed body)) o)).getD .cpu
      have hsame {i : Nat} (hi : i ≠ id) : b i = Function.update b id d i :=
        (Function.update_of_ne hi d b).symm
      have hbodyids {i : Nat} (hi : i ∈ opIdsIn body) : i ≠ id := fun heq => hid (heq ▸ hi)
      refine ⟨Function.update b id d, fun i hi => (hsame hi.1).symm.trans (hb i hi.2), ?_⟩
      rw [CheapestOp]
      refine ⟨cheapestOps_congr placed (fun i hi => hsame (hnew i hi).1) body
        (fun i hi => hsame (hbodyids hi)) hcheapest, fun key hkey => ?_⟩
      rw [Function.update_self, ← known_congr fun i hi => hsame ?_]
      · simp only [d, o, Option.mem_def.mp hkey, Option.map_some, Option.getD_some]
      · exact (mem_placedAfterAll placed body hi).elim (fun hi => (hnew i hi).1) hbodyids

theorem exists_cheapestOps (a : Nat → DeviceKind) (placed : List Nat) : (ops : List TOp) →
    (opIdsIn ops).Nodup → (∀ i ∈ placed, i ∉ opIdsIn ops) →
    ∃ b, (∀ i, i ∉ opIdsIn ops → b i = a i) ∧ CheapestOps b placed ops
  | [] => fun _ _ => ⟨a, fun _ _ => rfl, trivial⟩
  | o :: ops => fun hnodup hnew => by
      obtain ⟨ho, hops, hdisjoint⟩ := List.nodup_append.mp hnodup
      simp only [opIdsIn, List.mem_append, not_or] at hnew ⊢
      obtain ⟨b, hb, hfirst⟩ := exists_cheapestOp a placed o ho fun i hi => (hnew i hi).1
      have hlater : ∀ i ∈ placedAfter placed o, i ∉ opIdsIn ops := fun i hi hi' =>
        (mem_placedAfter placed o hi).elim (fun h => (hnew i h).2 hi') fun h =>
          hdisjoint i h i hi' rfl
      obtain ⟨c, hc, hrest⟩ := exists_cheapestOps b (placedAfter placed o) ops hops hlater
      refine ⟨c, fun i hi => (hc i hi.2).trans (hb i hi.1), ?_⟩
      rw [CheapestOps]
      refine ⟨cheapestOp_congr placed (fun i hi => (hc i (hnew i hi).2).symm) o
        (fun i hi => (hc i fun hi' => hdisjoint i hi i hi' rfl).symm) hfirst, hrest⟩

end

/-- A function of two square matrices. -/
def square (body : List TOp) : TOp :=
  let mat : Ty := .tensor [some 64, some 64] (.float 32)
  .mk 0 (.func "main" ⟨[mat, mat], [mat]⟩) none [] [] [1] body

/-- Two activations, and a return that does not read them. -/
def unread : TOp :=
  let mat : Ty := .tensor [some 64, some 64] (.float 32)
  square
    [.mk 2 .relu none [⟨.arg 0, mat⟩] [mat] [] [],
      .mk 3 .relu none [⟨.res 2 0, mat⟩] [mat] [] [],
      .mk 4 (.foreign 0) none [⟨.arg 1, mat⟩] [] [] []]

/-- A product that is returned. -/
def returned : TOp :=
  let mat : Ty := .tensor [some 64, some 64] (.float 32)
  square
    [.mk 2 .matmul none [⟨.arg 0, mat⟩, ⟨.arg 1, mat⟩] [mat] [] [],
      .mk 3 (.foreign 0) none [⟨.res 2 0, mat⟩] [] [] []]

end CrossMachine.Compiler.Placement
