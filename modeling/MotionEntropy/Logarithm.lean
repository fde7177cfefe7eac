import MotionEntropy.Checked

namespace MotionEntropy.Logarithm

def bitLength (v : Int) : Nat :=
  if v < 0 then 64 else if v = 0 then 0 else v.toNat.log2 + 1

def ofExponent (v : Int) : Except Fault Int := do
  require .exponentInRange (-64 ≤ v ∧ v ≤ 63)
  return v * 144115188075855872

/-- `2 ^ (i + 1) * atanh (2 ^ -(i + 1)) * log2 e` with 61 fraction bits, at index `i`. -/
def angles : List Int :=
  [0x32B803473F7AD0F4, 0x2F2A71BD4E25E916, 0x2E68B244BB93BA06, 0x2E39FB9198CE62E4,
    0x2E2E683F68565C8F, 0x2E2B850BE2077FC1, 0x2E2ACC58FE7B78DB, 0x2E2A9E2DE52FD5F2,
    0x2E2A92A338D53EEC, 0x2E2A8FC08F5E19B6, 0x2E2A8F07E51A485E, 0x2E2A8ED9BA8AF388,
    0x2E2A8ECE2FE7384A, 0x2E2A8ECB4D3E4B1A, 0x2E2A8ECA94940FE8, 0x2E2A8ECA6669811D,
    0x2E2A8ECA5ADEDD6A, 0x2E2A8ECA57FC347E, 0x2E2A8ECA57438A43, 0x2E2A8ECA57155FB4,
    0x2E2A8ECA5709D510, 0x2E2A8ECA5706F267, 0x2E2A8ECA570639BD, 0x2E2A8ECA57060B92,
    0x2E2A8ECA57060008, 0x2E2A8ECA5705FD25, 0x2E2A8ECA5705FC6C, 0x2E2A8ECA5705FC3E,
    0x2E2A8ECA5705FC33, 0x2E2A8ECA5705FC30, 0x2E2A8ECA5705FC2F, 0x2E2A8ECA5705FC2F]

/-- The steps 0 to 61; steps 3, 12 and 39 are taken twice, so that the rotation converges. -/
def schedule : List Nat :=
  List.range 4 ++ List.range' 3 10 ++ List.range' 12 28 ++ List.range' 39 23

def turns : List (Nat × Int) :=
  schedule.map fun i => (i + 1, angles.getD (min i 31) 0 >>> i)

structure Rotation where
  x : Int
  y : Int
  angle : Int
  deriving DecidableEq

def Rotation.turn (r : Rotation) (t : Nat × Int) : Except Fault Rotation := do
  let toward (v : Int) := if r.y < 0 then -v else v
  let angle ← Checked.int64 .add (r.angle + toward t.2)
  let x ← Checked.int64 .subtract (r.x - toward (r.y >>> t.1))
  let y ← Checked.int64 .subtract (r.y - toward (r.x >>> t.1))
  return ⟨x, y, angle⟩

def one : Int := 2305843009213693952

def ofMantissa (w : Int) : Except Fault Int :=
  if w = one then
    .ok 0
  else do
    let x ← Checked.int64 .add (w + one)
    let y ← Checked.int64 .subtract (w - one)
    let r ← turns.foldlM Rotation.turn ⟨x, y, 0⟩
    let rounded ← Checked.int64 .add (r.angle + 8)
    return rounded >>> (4 : Nat)

def log2 (w : Int) : Except Fault Int :=
  if w ≤ 0 then
    .ok (-1)
  else do
    let exponent := bitLength w - 1
    let mantissa := if 61 < exponent then w >>> (exponent - 61) else w <<< (61 - exponent)
    let part ← ofMantissa mantissa
    let whole ← ofExponent exponent
    Checked.int64 .add (whole + part)

def cost (p shift : Nat) : Except Fault Nat := do
  require .scaleInRange (shift < 57)
  let top ← ofExponent 15
  let log ← log2 (max 1 (min p 32768) : Nat)
  let bits ← Checked.int64 .subtract (top - log)
  let rounded ← Checked.int64 .add (bits + (1 <<< (56 - shift) : Nat))
  return ((rounded >>> (57 - shift)) % 4294967296).toNat

end MotionEntropy.Logarithm
