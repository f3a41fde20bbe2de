import Mathlib.Data.Nat.Bitwise
import WolfsslRs.Rust
import WolfsslRs.SshAlgorithm
/-!
# SshRandomart — the drunken bishop (`fingerprint/randomart.rs`)

A bishop walks over a field of 17 by 9 cells, one diagonal step for each two bits of the fingerprint, and every cell
counts how often it was entered.  Against the walk as it is described, cell by cell (`Bishop.path`), the drawing holds the
counts up to 14 and the two marks, and every cell of it has a symbol (`randomart_drawn`).
-/
namespace Wolf
namespace Ssh

open Rust

namespace Randomart

def width : Nat := 17

def height : Nat := 9

def values : List Char := " .o+=*BOX@%&#/^SE".toList

def nvalues : Nat := values.length - 1

/-- `[[u8; WIDTH]; HEIGHT]`. -/
abbrev Field := Vector (Vector Nat width) height

/-- `field[y][x]`; an index outside is a panic, `none` here and below. -/
def Field.index (field : Field) (y x : Nat) : Option Nat := do
  let row ← field[y]?
  row[x]?

/-- `field[y][x] = v`. -/
def Field.assign (field : Field) (y x v : Nat) : Option Field :=
  if hy : y < height then
    if hx : x < width then some (field.set y (field[y].set x v)) else none
  else none

/-- What the loops of `Randomart::new` change, with the cells entered so far. -/
structure Walk where
  x : Nat
  y : Nat
  field : Field
  byte : UInt8
  entered : List (Nat × Nat)

def Walk.start : Walk where
  x := width / 2
  y := height / 2
  field := .replicate _ (.replicate _ 0)
  byte := 0
  entered := []

section Code

variable (build : Build)

/-- `n.saturating_add(1)` on a `usize`. -/
def saturatingSucc (n : Nat) : Nat := min (n + 1) (build.usizeSize - 1)

/-- The body of the inner loop. -/
def Walk.step (w : Walk) : Option Walk := do
  let x := if w.byte &&& 0x1 = 0 then w.x - 1 else saturatingSucc build w.x
  let y := if w.byte &&& 0x2 = 0 then w.y - 1 else saturatingSucc build w.y
  let x := min x (width - 1)
  let y := min y (height - 1)
  let v ← w.field.index y x
  let field ← if v < nvalues - 2 then w.field.assign y x (min (v + 1) 255) else some w.field
  some { x, y, field, byte := w.byte >>> 2, entered := w.entered ++ [(x, y)] }

def Walk.steps : Nat → Walk → Option Walk
  | 0, w => some w
  | n + 1, w => do
    let w ← w.step build
    steps n w

def Walk.walkBytes : Bytes → Walk → Option Walk
  | [], w => some w
  | byte :: bytes, w => do
    let w ← Walk.steps build 4 { w with byte }
    walkBytes bytes w

/-- The two marks: the start, then the end over it. -/
def Walk.mark (w : Walk) : Option Field := do
  let field ← w.field.assign (height / 2) (width / 2) (nvalues - 1)
  field.assign w.y w.x nvalues

end Code

end Randomart

open Randomart

structure Randomart where
  header : Text
  field : Randomart.Field
  footer : Text

def HashAlg.footer : HashAlg → Text
  | .sha256 => "[SHA256]".toList
  | .sha512 => "[SHA512]".toList

def Randomart.new (build : Build) (header : Text) (algorithm : HashAlg) (fingerprint : Bytes) : Option Randomart := do
  let w ← Walk.walkBytes build fingerprint .start
  some { header, field := ← w.mark, footer := algorithm.footer }

/-- `format!("+{:-^width$}+", text, width = WIDTH)`: the odd dash goes to the right. -/
def border (text : Text) : Text :=
  let padding := width - text.length
  '+' :: (List.replicate (padding / 2) '-' ++ text ++ List.replicate ((padding + 1) / 2) '-') ++ ['+']

def renderRow (row : List Nat) : Option Text := do
  let symbols ← row.mapM fun c => values[c]?
  some ('|' :: symbols ++ ['|', '\n'])

/-- The `Display` of the crate. -/
def Randomart.fmt (art : Randomart) : Option Text := do
  let rows ← art.field.toList.mapM fun row => renderRow row.toList
  some (border art.header ++ ['\n'] ++ rows.flatten ++ border art.footer)

def toRandomart (build : Build) (header : Text) (algorithm : HashAlg) (fingerprint : Bytes) : Option Text := do
  let art ← Randomart.new build header algorithm fingerprint
  art.fmt

namespace Randomart

/-! ## The walk as it is described -/

abbrev Cell := Fin width × Fin height

def startCell : Cell := (⟨width / 2, by decide⟩, ⟨height / 2, by decide⟩)

/-- One place up or down an axis, and not over its end. -/
def shift {n : Nat} (up : Bool) (i : Fin n) : Fin n :=
  if up then ⟨min (i + 1) (n - 1), by omega⟩ else ⟨i - 1, by omega⟩

def move (c : Cell) (m : Bool × Bool) : Cell := (shift m.1 c.1, shift m.2 c.2)

/-- The moves in the lowest `2 * n` bits of a number, the lowest pair first. -/
def movesOf (n byte : Nat) : List (Bool × Bool) :=
  (List.range n).map fun i => (byte.testBit (2 * i), byte.testBit (2 * i + 1))

def moves (bytes : Bytes) : List (Bool × Bool) := bytes.flatMap fun byte => movesOf 4 byte.toNat

/-- The cells the bishop enters, in order. -/
def path : Cell → List (Bool × Bool) → List Cell
  | _, [] => []
  | c, m :: ms => move c m :: path (move c m) ms

/-- Where it ends. -/
def arrival (c : Cell) (ms : List (Bool × Bool)) : Cell := ms.foldl move c

theorem path_append : ∀ (c : Cell) (ms ns : List (Bool × Bool)),
    path c (ms ++ ns) = path c ms ++ path (arrival c ms) ns
  | _, [], _ => rfl
  | c, m :: ms, ns => congrArg (move c m :: ·) (path_append (move c m) ms ns)

theorem arrival_append (c : Cell) (ms ns : List (Bool × Bool)) : arrival c (ms ++ ns) = arrival (arrival c ms) ns :=
  List.foldl_append

theorem movesOf_succ (n byte : Nat) :
    movesOf (n + 1) byte = (byte.testBit 0, byte.testBit 1) :: movesOf n (byte >>> 2) := by
  unfold movesOf
  rw [List.range_succ_eq_map, List.map_cons, List.map_map]
  congr 1
  refine List.map_congr_left fun i _ => ?_
  simp only [Function.comp_apply, Nat.testBit_shiftRight]
  congr 2 <;> omega

/-! ## Cells of a field -/

def Field.at (field : Field) (c : Cell) : Nat := (field.get c.2).get c.1

theorem index_eq (field : Field) (c : Cell) : field.index c.2 c.1 = some (field.at c) := by
  unfold Field.index
  rw [Vector.getElem?_eq_getElem c.2.isLt, Option.bind_eq_bind, Option.bind_some, Vector.getElem?_eq_getElem c.1.isLt]
  rfl

/-- **An assignment inside the field** changes its cell and no other. -/
theorem assign_eq (field : Field) (c : Cell) (v : Nat) :
    ∃ field', field.assign c.2 c.1 v = some field' ∧ ∀ c', field'.at c' = if c' = c then v else field.at c' := by
  refine ⟨_, by rw [Field.assign, dif_pos c.2.isLt, dif_pos c.1.isLt], fun c' => ?_⟩
  have hat : ∀ f : Field, f.at c' = f[c'.2.val][c'.1.val] := fun _ => rfl
  rw [hat, hat]
  by_cases hy : c.2 = c'.2
  · by_cases hx : c.1 = c'.1
    · obtain rfl : c' = c := Prod.ext hx.symm hy.symm
      simp only [Vector.getElem_set_self, if_true]
    · have hne : c' ≠ c := fun h => hx (h ▸ rfl)
      simp only [hy, Vector.getElem_set_self, if_neg hne]
      exact Vector.getElem_set_ne _ _ fun h => hx (Fin.ext h)
  · have hne : c' ≠ c := fun h => hy (h ▸ rfl)
    rw [if_neg hne, Vector.getElem_set_ne _ _ fun h => hy (Fin.ext h)]

/-! ## The walk of the code -/

/-- **What the code holds of a walk**: where it is, the cells entered, and how often, up to 14 times. -/
structure Tracks (cells : List Cell) (c : Cell) (w : Walk) : Prop where
  x : w.x = c.1
  y : w.y = c.2
  entered : w.entered = cells.map fun c => (c.1.val, c.2.val)
  counts : ∀ c, w.field.at c = min 14 (cells.count c)

theorem tracks_start : Tracks [] startCell .start where
  x := rfl
  y := rfl
  entered := rfl
  counts c := by
    have hat : Walk.start.field.at c = Walk.start.field[c.2.val][c.1.val] := rfl
    rw [hat, List.count_nil, Nat.min_zero]
    simp only [Walk.start, Vector.getElem_replicate]

theorem and_mask_eq_zero {byte mask : UInt8} {i : Nat} (hmask : mask.toNat = 2 ^ i) :
    byte &&& mask = 0 ↔ byte.toNat.testBit i = false := by
  rw [← UInt8.toNat_inj, UInt8.toNat_and, hmask, Nat.and_two_pow]
  cases byte.toNat.testBit i <;> simp

/-- **A coordinate after the clamp** is the place the move leads to. -/
theorem clamp_eq (build : Build) {n : Nat} (i : Fin n) (hn : n ≤ 2 ^ 31) {byte mask : UInt8} {k : Nat}
    (hmask : mask.toNat = 2 ^ k) :
    min (if byte &&& mask = 0 then i.val - 1 else saturatingSucc build i.val) (n - 1) =
      (shift (byte.toNat.testBit k) i).val := by
  have husize := isizeMax_lt build
  have hisize := two_pow_31_le build
  have hi := i.isLt
  unfold shift saturatingSucc
  cases hbit : byte.toNat.testBit k with
  | false =>
    rw [if_pos ((and_mask_eq_zero hmask).2 hbit)]
    simp only [Bool.false_eq_true, if_false]
    omega
  | true =>
    rw [if_neg fun h => by rw [(and_mask_eq_zero hmask).1 h] at hbit; cases hbit]
    simp only [if_true]
    omega

section Run

variable (build : Build) {cells : List Cell} {c : Cell} {w : Walk}

/-- **A step of the code** enters the cell the move leads to, inside the field, and counts it. -/
theorem step_tracks (h : Tracks cells c w) : ∃ w', w.step build = some w' ∧ w'.byte = w.byte >>> 2 ∧
    Tracks (cells ++ [move c (w.byte.toNat.testBit 0, w.byte.toNat.testBit 1)])
      (move c (w.byte.toNat.testBit 0, w.byte.toNat.testBit 1)) w' := by
  let c' := move c (w.byte.toNat.testBit 0, w.byte.toNat.testBit 1)
  have hx : min (if w.byte &&& 0x1 = 0 then w.x - 1 else saturatingSucc build w.x) (width - 1) = c'.1.val := by
    rw [h.x]
    exact clamp_eq build c.1 (by decide) rfl
  have hy : min (if w.byte &&& 0x2 = 0 then w.y - 1 else saturatingSucc build w.y) (height - 1) = c'.2.val := by
    rw [h.y]
    exact clamp_eq build c.2 (by decide) rfl
  have hcount : ∀ d : Cell, (cells ++ [c']).count d = cells.count d + if d = c' then 1 else 0 := fun d => by
    rw [List.count_append, List.count_singleton]
    simp only [beq_iff_eq, @eq_comm Cell c' d]
  have hentered : w.entered ++ [(c'.1.val, c'.2.val)] = (cells ++ [c']).map fun c => (c.1.val, c.2.val) := by
    rw [h.entered, List.map_append]
    rfl
  have hold := h.counts c'
  unfold Walk.step
  simp only [hx, hy, index_eq, Option.bind_eq_bind, Option.bind_some]
  by_cases hlow : w.field.at c' < nvalues - 2
  · obtain ⟨field', hassign, hfield⟩ := assign_eq w.field c' (min (w.field.at c' + 1) 255)
    rw [if_pos hlow, hassign]
    refine ⟨_, rfl, rfl, rfl, rfl, hentered, fun d => ?_⟩
    rw [hfield d, hcount d]
    by_cases hd : d = c'
    · subst hd
      rw [if_pos rfl, if_pos rfl]
      have hcap : nvalues - 2 = 14 := rfl
      omega
    · rw [if_neg hd, if_neg hd, h.counts d, Nat.add_zero]
  · rw [if_neg hlow]
    refine ⟨_, rfl, rfl, rfl, rfl, hentered, fun d => ?_⟩
    rw [h.counts d, hcount d]
    by_cases hd : d = c'
    · subst hd
      rw [if_pos rfl]
      have hcap : nvalues - 2 = 14 := rfl
      omega
    · rw [if_neg hd, Nat.add_zero]

theorem steps_tracks : ∀ (n : Nat) {cells : List Cell} {c : Cell} {w : Walk}, Tracks cells c w →
    ∃ w', Walk.steps build n w = some w' ∧
      Tracks (cells ++ path c (movesOf n w.byte.toNat)) (arrival c (movesOf n w.byte.toNat)) w'
  | 0, cells, c, w, h => ⟨w, rfl, by
    rw [show movesOf 0 w.byte.toNat = [] from rfl, path, List.append_nil]
    exact h⟩
  | n + 1, cells, c, w, h => by
    obtain ⟨w₁, hstep, hbyte, h₁⟩ := step_tracks build h
    obtain ⟨w₂, hsteps, h₂⟩ := steps_tracks n h₁
    have hshift : w₁.byte.toNat = w.byte.toNat >>> 2 := by
      rw [hbyte, UInt8.toNat_shiftRight]
      rfl
    rw [List.append_assoc, List.singleton_append, hshift] at h₂
    refine ⟨w₂, ?_, ?_⟩
    · rw [Walk.steps, hstep]
      exact hsteps
    · rw [movesOf_succ]
      exact h₂

/-- **The walk over a byte string** follows the described one. -/
theorem walkBytes_tracks : ∀ (bytes : Bytes) {cells : List Cell} {c : Cell} {w : Walk}, Tracks cells c w →
    ∃ w', Walk.walkBytes build bytes w = some w' ∧
      Tracks (cells ++ path c (moves bytes)) (arrival c (moves bytes)) w'
  | [], cells, c, w, h => ⟨w, rfl, by
    rw [show moves [] = [] from rfl, path, List.append_nil]
    exact h⟩
  | byte :: bytes, cells, c, w, h => by
    obtain ⟨w₁, hsteps, h₁⟩ := steps_tracks build 4 (w := { w with byte }) ⟨h.x, h.y, h.entered, h.counts⟩
    obtain ⟨w₂, hwalk, h₂⟩ := walkBytes_tracks bytes h₁
    refine ⟨w₂, ?_, ?_⟩
    · rw [Walk.walkBytes, hsteps]
      exact hwalk
    · rw [moves, List.flatMap_cons, path_append, arrival_append, ← List.append_assoc]
      exact h₂

end Run

/-! ## The drawing -/

/-- What a cell of the finished drawing holds, for a walk over `cells` that ended on `last`. -/
def drawn (cells : List Cell) (last c : Cell) : Nat :=
  if c = last then nvalues else if c = startCell then nvalues - 1 else min 14 (cells.count c)

theorem drawn_lt (cells : List Cell) (last c : Cell) : drawn cells last c < values.length := by
  have hvalues : values.length = 17 := rfl
  have hnvalues : nvalues = 16 := rfl
  unfold drawn
  split
  · omega
  · split <;> omega

theorem mark_eq {cells : List Cell} {c : Cell} {w : Walk} (h : Tracks cells c w) :
    ∃ field, w.mark = some field ∧ ∀ d, field.at d = drawn cells c d := by
  obtain ⟨field₁, hstart, hfield₁⟩ := assign_eq w.field startCell (nvalues - 1)
  obtain ⟨field₂, hend, hfield₂⟩ := assign_eq field₁ c nvalues
  refine ⟨field₂, ?_, fun d => ?_⟩
  · unfold Walk.mark
    rw [h.x, h.y]
    exact (congrArg (· >>= fun field : Field => field.assign c.2 c.1 nvalues) hstart).trans hend
  · rw [hfield₂ d, hfield₁ d, h.counts d, drawn]

theorem mapM_some {α β : Type} {f : α → Option β} : ∀ {l : List α}, (∀ a ∈ l, (f a).isSome) → (l.mapM f).isSome
  | [], _ => rfl
  | a :: l, h => by
    obtain ⟨b, hb⟩ := Option.isSome_iff_exists.1 (h a List.mem_cons_self)
    obtain ⟨bs, hbs⟩ := Option.isSome_iff_exists.1 (mapM_some fun a ha => h a (List.mem_cons_of_mem _ ha))
    rw [List.mapM_cons, hb, hbs]
    rfl

/-- **A field of symbols can be rendered**: no index leaves the table. -/
theorem fmt_isSome {art : Randomart} (h : ∀ c, art.field.at c < values.length) : art.fmt.isSome := by
  have hsymbols : ∀ row ∈ art.field.toList, ∀ v ∈ row.toList, v < values.length := by
    intro row hrow v hv
    obtain ⟨y, hy, rfl⟩ := Vector.mem_iff_getElem.1 (Vector.mem_toList_iff.1 hrow)
    obtain ⟨x, hx, rfl⟩ := Vector.mem_iff_getElem.1 (Vector.mem_toList_iff.1 hv)
    exact h (⟨x, hx⟩, ⟨y, hy⟩)
  have hrows : (art.field.toList.mapM fun row => renderRow row.toList).isSome := mapM_some fun row hrow => by
    have hrendered : (row.toList.mapM fun c => values[c]?).isSome := mapM_some fun v hv => by
      rw [List.getElem?_eq_getElem (hsymbols row hrow v hv)]
      rfl
    obtain ⟨symbols, hs⟩ := Option.isSome_iff_exists.1 hrendered
    rw [renderRow, hs]
    rfl
  obtain ⟨rows, hr⟩ := Option.isSome_iff_exists.1 hrows
  rw [Randomart.fmt, hr]
  rfl

end Randomart

/-- **The drunken bishop.** -/
theorem randomart_drawn (build : Build) (header : Text) (algorithm : HashAlg) (fingerprint : Bytes) :
    let cells := path startCell (moves fingerprint)
    let last := arrival startCell (moves fingerprint)
    ∃ w art, Walk.walkBytes build fingerprint .start = some w ∧
      w.entered = cells.map (fun c => (c.1.val, c.2.val)) ∧ (w.x, w.y) = (last.1.val, last.2.val) ∧
      Randomart.new build header algorithm fingerprint = some art ∧
      (∀ c, c ≠ last → c ≠ startCell → art.field.at c = min 14 (cells.count c)) ∧
      art.field.at last = nvalues ∧ (last ≠ startCell → art.field.at startCell = nvalues - 1) ∧
      art.fmt.isSome := by
  intro cells last
  obtain ⟨w, hwalk, htracks⟩ := walkBytes_tracks build fingerprint tracks_start
  obtain ⟨field, hmark, hfield⟩ := mark_eq htracks
  have hnew : Randomart.new build header algorithm fingerprint = some ⟨header, field, algorithm.footer⟩ := by
    rw [Randomart.new, hwalk]
    exact congrArg (· >>= fun field => some (Randomart.mk header field algorithm.footer)) hmark
  refine ⟨w, _, hwalk, htracks.entered, by rw [htracks.x, htracks.y], hnew, ?_, ?_, ?_, ?_⟩
  · intro c hlast hstart
    exact (hfield c).trans (by rw [drawn, if_neg hlast, if_neg hstart]; rfl)
  · exact (hfield last).trans (if_pos rfl)
  · intro hne
    exact (hfield startCell).trans (by rw [drawn, if_neg (Ne.symm hne), if_pos rfl])
  · exact fmt_isSome fun c => by rw [hfield c]; exact drawn_lt _ _ c

example : (toRandomart .release "[ED25519 256]".toList .sha256 [80, 37, 34, 46, 190, 207, 142, 207, 112, 20, 82, 76, 12, 28,
    139, 129, 205, 205, 174, 215, 84, 223, 142, 14, 129, 67, 56, 231, 6, 79, 112, 132]).map String.ofList =
    some "+--[ED25519 256]--+
|o+oO==+ o..      |
|.o++Eo+o..       |
|. +.oO.o . .     |
| . o..B.. . .    |
|  ...+ .S. o     |
|  .o. . . . .    |
|  o..    o       |
|   B      .      |
|  .o*            |
+----[SHA256]-----+" := by decide +kernel

end Ssh
end Wolf
