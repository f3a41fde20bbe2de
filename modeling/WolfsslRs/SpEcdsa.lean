import WolfsslRs.SpInverse
import WolfsslRs.SpScalars
/-!
# SpEcdsa — the numbers of a signature (wolfssl-src, patches/sp_c64.c)

`calc_s` makes the second half of a signature from the nonce, the private key and the hash, and `sp_ecc_sign` tries nonces
until both halves can be used.  `calc_vfy_point` turns the signature and the hash into the two scalars of the point that is
compared with the first half.  The multiplication of points is not modelled: its results are taken as given.
-/
namespace Wolf
namespace Sp

open Words Limbs

/-! ## The code -/

/-- A number brought to Montgomery form modulo the order. -/
def Curve.toMont (c : Curve) (a : c.format.Digits) : c.format.Digits :=
  norm c.format.b (c.mod (mul c.format a c.normOrder) c.order)

/-- `calc_s` of the curve; `td` is what the temporaries hold.  The sum of digits never has a carry, and what would be
subtracted for it is not. -/
def Curve.calcS (c : Curve) (td : Reg → c.format.Digits) (r k x e : c.format.Digits) : c.format.Digits :=
  let k := c.toMont k
  let kInv := norm c.format.b (c.montInvOrder td k)
  let x := norm c.format.b (c.mod (mul c.format x r) c.order)
  let s := norm c.format.b (condSub (add e x) c.order (0#c.format.w - 0#c.format.w))
  let s := c.subOrder s
  norm c.format.b (c.montMulOrder s kInv)

/-- Errors of the attempts: a code of the generator or of the multiplication of points, or that no nonce could be used. -/
inductive SignError
  | code (e : Int)
  | rngFailure
  deriving DecidableEq

/-- What signing is given: the product of the base point, of which the x ordinate counts, the temporaries of each attempt,
the private key and the hash. -/
structure Signer (c : Curve) where
  mulmodBase : c.format.Digits → Except Int c.format.Digits
  td : Nat → Reg → c.format.Digits
  priv : c.format.Digits
  hash : Bytes

/-- One attempt with a nonce: the two halves if both are not zero. -/
def Signer.attempt {c : Curve} (g : Signer c) (i : Nat) (k : c.format.Digits) :
    Except Int (Option (c.format.Digits × c.format.Digits)) :=
  match g.mulmodBase k with
  | .error e => .error e
  | .ok x =>
    let r := c.subOrder (norm c.format.b x)
    if iszero r then .ok none
    else
      let s := c.calcS (g.td i) r k g.priv (c.hashNumber g.hash)
      if iszero s then .ok none else .ok (some (r, s))

/-- The nonce of an attempt: the one that was given, once, or a new one. -/
def Curve.nonce (c : Curve) (km : Option c.format.Digits) (rng : Rng) : Option (Except Int c.format.Digits × Rng) :=
  match km with
  | some k => some (.ok k, rng)
  | none => c.genK rng

/-- The loop of `sp_ecc_sign` with `i` attempts left.  An error of the last attempt is reported as that no nonce could be
used. -/
def Signer.signLoop {c : Curve} (g : Signer c) : Nat → Option c.format.Digits → Rng →
    Option (Except SignError (c.format.Digits × c.format.Digits) × Rng)
  | 0, _, rng => some (.error .rngFailure, rng)
  | i + 1, km, rng =>
    match c.nonce km rng with
    | none => none
    | some (.error e, rng) => some (.error (if i = 0 then .rngFailure else .code e), rng)
    | some (.ok k, rng) =>
      match g.attempt (i + 1) k with
      | .error e => some (.error (if i = 0 then .rngFailure else .code e), rng)
      | .ok (some rs) => some (.ok rs, rng)
      | .ok none => g.signLoop i none rng

/-- `sp_ecc_sign` of the curve up to the conversion of the two halves by `sp_to_mp`, with memory for its numbers: at most
64 attempts. -/
def Signer.sign {c : Curve} (g : Signer c) (km : Option c.format.Digits) (rng : Rng) :
    Option (Except SignError (c.format.Digits × c.format.Digits) × Rng) := g.signLoop 64 km rng

/-- The scalars of `calc_vfy_point` where the code is not built for size, from the second half `s` of the
signature, the number of the hash and the first half. -/
def Curve.vfyScalars (c : Curve) (fuel : Nat) (s u1 u2 : c.format.Digits) : Option (c.format.Digits × c.format.Digits) :=
  (modInv c.format fuel s c.order).map fun s =>
    let s := c.toMont s
    (c.montMulOrder u1 s, c.montMulOrder u2 s)

/-! ## The second half -/

theorem Curve.n_isPrime (c : Curve) : Prime c.n := by
  rw [← c.n_toNat]
  exact Nat.prime_iff_prime_int.1 c.n_prime

section SecondHalf

variable {c : Curve}

theorem Curve.cancel_R {x y : Int} (h : c.R * x ≡ c.R * y [ZMOD c.n]) : x ≡ y [ZMOD c.n] := by
  have hn := c.n_odd
  have htwo : IsCoprime c.n 2 := ⟨1, -(c.n / 2), by omega⟩
  have hcop : IsCoprime c.n c.R := htwo.pow_right
  rw [Int.modEq_iff_dvd] at h ⊢
  exact hcop.dvd_of_dvd_mul_left (by rw [mul_sub]; exact h)

theorem Curve.not_dvd_of_mont {x y : Int} (h : y ≡ c.R * x [ZMOD c.n]) (hx : ¬ c.n ∣ x) : ¬ c.n ∣ y := by
  intro hdvd
  have hzero : c.R * x ≡ c.R * 0 [ZMOD c.n] := by
    rw [mul_zero]
    exact h.symm.trans (Int.modEq_zero_iff_dvd.2 hdvd)
  exact hx (Int.modEq_zero_iff_dvd.1 (Curve.cancel_R hzero))

/-- **Montgomery form**, of a number whose digits may have a bit too many. -/
theorem Curve.toMont_spec {a : c.format.Digits} (hlen : a.length = c.format.n) (ha : Between 0 (2 * 2 ^ c.format.b) a)
    (hlt : value c.format.b a < 2 * c.R) :
    c.format.Below c.R (c.toMont a) ∧ value c.format.b (c.toMont a) ≡ c.R * value c.format.b a [ZMOD c.n] := by
  have hR := c.R_le_radix
  have hpos := c.R_pos
  have hb := c.n_bounds
  have h0 := ha.value_nonneg (b := c.format.b)
  have hn := c.normOrder_below
  have hnR := c.normOrder_value
  obtain ⟨hl, hcanon, hval⟩ := mul_loose_spec hlen ha (by omega) hn.below_radix
  rw [hnR] at hval
  have hle : value c.format.b a * (c.R - c.n) ≤ c.R * c.R := by
    calc value c.format.b a * (c.R - c.n) ≤ 2 * c.R * (c.R - c.n) := mul_le_mul_of_nonneg_right hlt.le (by omega)
      _ = c.R * (2 * (c.R - c.n)) := by ring
      _ ≤ c.R * c.R := mul_le_mul_of_nonneg_left (by omega) hpos.le
  obtain ⟨hbelow, hmod⟩ := Curve.mod_spec hl hcanon (by rw [hval]; exact hle)
  rw [Curve.toMont, norm_of_canon hbelow.length hbelow.canon]
  refine ⟨hbelow, hmod.trans ?_⟩
  rw [hval]
  exact Int.modEq_iff_dvd.2 ⟨value c.format.b a, by ring⟩

theorem loose_of_canon {f : Format} {a : f.Digits} (ha : Canon f.b a) : Between 0 (2 * 2 ^ f.b) a := by
  have hpos := two_pow_pos f.b
  exact Between.mono ha le_rfl (by omega)

theorem Curve.toMont_of_below {a : c.format.Digits} (ha : c.format.Below (2 * c.R) a) :
    c.format.Below c.R (c.toMont a) ∧ value c.format.b (c.toMont a) ≡ c.R * value c.format.b a [ZMOD c.n] :=
  Curve.toMont_spec ha.length (loose_of_canon ha.canon) ha.lt

/-- **Montgomery form is kept by products**: multiplying the forms is the form of the remainder of the product. -/
theorem Curve.toMont_mul {x y : c.format.Digits} (hx : c.format.Below c.R x) (hy : c.format.Below c.R y) :
    value c.format.b (c.montMulOrder (c.toMont x) (c.toMont y)) ≡
      value c.format.b (c.toMont (c.mod (mul c.format x y) c.order)) [ZMOD c.n] := by
  have hn := c.n_bounds
  have hpos := c.R_pos
  obtain ⟨hxm, hxmod⟩ := Curve.toMont_of_below (hx.mono (by omega))
  obtain ⟨hym, hymod⟩ := Curve.toMont_of_below (hy.mono (by omega))
  obtain ⟨hxy, hxymod⟩ := Curve.mod_mul_spec hx hy
  obtain ⟨-, hprod⟩ := Curve.montMulOrder_mod (u := c.R) ⟨le_rfl, by omega⟩ hxm hym
  refine Curve.cancel_R ?_
  calc c.R * value c.format.b (c.montMulOrder (c.toMont x) (c.toMont y))
      ≡ value c.format.b (c.toMont x) * value c.format.b (c.toMont y) [ZMOD c.n] := hprod
    _ ≡ c.R * value c.format.b x * (c.R * value c.format.b y) [ZMOD c.n] := hxmod.mul hymod
    _ = c.R * (c.R * (value c.format.b x * value c.format.b y)) := by ring
    _ ≡ c.R * (c.R * value c.format.b (c.mod (mul c.format x y) c.order)) [ZMOD c.n] :=
      (hxymod.symm.mul_left _).mul_left _
    _ ≡ c.R * value c.format.b (c.toMont (c.mod (mul c.format x y) c.order)) [ZMOD c.n] :=
      (Curve.toMont_of_below (hxy.mono (by omega))).2.symm.mul_left _

theorem Curve.toMont_mul_normOrder :
    value p384Format.b (Curve.p384.montMulOrder (Curve.p384.toMont p384NormOrder) (Curve.p384.toMont p384NormOrder)) ≡
      value p384Format.b (Curve.p384.toMont (sp384Div7 (mul p384Format p384NormOrder p384NormOrder) p384Order))
        [ZMOD Curve.p384.n] :=
  Curve.toMont_mul (c := .p384) (Curve.normOrder_below .p384) (Curve.normOrder_below .p384)

theorem Curve.sum_spec {e x : c.format.Digits} (he : c.format.Below c.R e) (hx : c.format.Below c.R x) :
    c.format.Below (2 * c.R - c.n)
      (c.subOrder (norm c.format.b (condSub (add e x) c.order (0#c.format.w - 0#c.format.w)))) ∧
      value c.format.b (c.subOrder (norm c.format.b (condSub (add e x) c.order (0#c.format.w - 0#c.format.w)))) ≡
        value c.format.b e + value c.format.b x [ZMOD c.n] := by
  have hR := c.R_le_radix
  have hn := c.n_bounds
  have hpos := c.R_pos
  have hlen : (add e x).length = c.order.length := by
    rw [length_add, he.length, hx.length, Nat.min_self, c.modulus.length]
  have helt := he.lt
  have hxlt := hx.lt
  obtain ⟨hbelow, hval⟩ := norm_add_spec (c := 2 * c.R) hR he.below_radix hx.below_radix (by omega)
  rw [BitVec.sub_zero, condSub_zero hlen, ← hval]
  exact Curve.subOrder_spec (hbelow.mono (by omega)) (by omega) (by omega)

/-- **The second half of a signature** times the nonce is the hash and the product of the key and the first half. -/
theorem Curve.calcS_mul (td : Reg → c.format.Digits) {r k x e : c.format.Digits}
    (hr : c.format.Below c.R r) (hk : c.format.Below c.R k) (hk0 : ¬ c.n ∣ value c.format.b k)
    (hx : c.format.Below c.R x) (he : c.format.Below c.R e) :
    c.format.Below (2 * c.R - c.n) (c.calcS td r k x e) ∧
      value c.format.b (c.calcS td r k x e) * value c.format.b k ≡
        value c.format.b e + value c.format.b x * value c.format.b r [ZMOD c.n] := by
  have hn := c.n_bounds
  have hpos := c.R_pos
  obtain ⟨hkm, hkmod⟩ := Curve.toMont_of_below (hk.mono (by omega))
  have hkm0 := Curve.not_dvd_of_mont hkmod hk0
  obtain ⟨hinv, hinvmod⟩ := Curve.montInvOrder_spec td hkm hkm0
  obtain ⟨hxr, hxrmod⟩ := Curve.mod_mul_spec hx hr
  obtain ⟨hsum, hsummod⟩ := Curve.sum_spec he hxr
  obtain ⟨hs, hsmod⟩ := Curve.montMulOrder_mod ⟨by omega, by omega⟩ hsum hinv
  have heq : c.calcS td r k x e = c.montMulOrder (c.subOrder (norm c.format.b (condSub
      (add e (c.mod (mul c.format x r) c.order)) c.order (0#c.format.w - 0#c.format.w)))) (c.montInvOrder td (c.toMont k)) := by
    unfold Curve.calcS
    dsimp only
    rw [norm_of_canon hinv.length hinv.canon, norm_of_canon hxr.length hxr.canon]
    exact norm_of_canon hs.length hs.canon
  rw [heq]
  refine ⟨hs, ?_⟩
  generalize c.montMulOrder _ _ = s at hsmod ⊢
  generalize c.subOrder _ = t at hsmod hsummod
  have htwice : c.R * (c.R * (value c.format.b s * value c.format.b k)) ≡ c.R * (c.R * value c.format.b t) [ZMOD c.n] := by
    calc c.R * (c.R * (value c.format.b s * value c.format.b k))
        = c.R * value c.format.b s * (c.R * value c.format.b k) := by ring
      _ ≡ value c.format.b t * value c.format.b (c.montInvOrder td (c.toMont k)) * value c.format.b (c.toMont k) [ZMOD c.n] :=
        hsmod.mul hkmod.symm
      _ = value c.format.b t * (value c.format.b (c.montInvOrder td (c.toMont k)) * value c.format.b (c.toMont k)) := by ring
      _ ≡ value c.format.b t * (c.R * c.R) [ZMOD c.n] := hinvmod.mul_left _
      _ = c.R * (c.R * value c.format.b t) := by ring
  calc value c.format.b s * value c.format.b k ≡ value c.format.b t [ZMOD c.n] := Curve.cancel_R (Curve.cancel_R htwice)
    _ ≡ value c.format.b e + value c.format.b (c.mod (mul c.format x r) c.order) [ZMOD c.n] := hsummod
    _ ≡ value c.format.b e + value c.format.b x * value c.format.b r [ZMOD c.n] := hxrmod.add_left _

end SecondHalf

/-! ## Signing -/

section Signing

variable {c : Curve} {g : Signer c}

/-- What signing may rely on: the private key has no more bits than the order, and a product of the base point is a number
of as many bits, whose carries need not have been passed on. -/
structure Signer.Ok (g : Signer c) : Prop where
  priv : c.format.Below c.R g.priv
  length : ∀ {k x}, g.mulmodBase k = .ok x → x.length = c.format.n
  between : ∀ {k x}, g.mulmodBase k = .ok x → Between (-(15 * 2 ^ c.format.b)) (15 * 2 ^ c.format.b) x
  range : ∀ {k x}, g.mulmodBase k = .ok x → 0 ≤ value c.format.b x ∧ value c.format.b x < c.R

/-- A number that can be a nonce. -/
structure Curve.Nonce (c : Curve) (k : c.format.Digits) : Prop where
  below : c.format.Below c.R k
  unit : ¬ c.n ∣ value c.format.b k

/-- What a signature is: the first half is the ordinate of the nonce's point, and the second solves the equation. -/
structure Signer.Signed (g : Signer c) (k r s : c.format.Digits) : Prop where
  nonce : c.Nonce k
  point : ∃ x, g.mulmodBase k = .ok x ∧ value c.format.b r ≡ value c.format.b x [ZMOD c.n]
  first : c.format.Below c.n r
  first_pos : 0 < value c.format.b r
  second : c.format.Below (2 * c.R - c.n) s
  second_pos : 0 < value c.format.b s
  eq : value c.format.b s * value c.format.b k ≡
    value c.format.b (c.hashNumber g.hash) + value c.format.b g.priv * value c.format.b r [ZMOD c.n]

theorem Curve.nonce_of_below {k : c.format.Digits} (hk : c.format.Below c.n k) (h0 : 0 < value c.format.b k) : c.Nonce k := by
  have hn := c.n_bounds
  have hlt := hk.lt
  refine ⟨hk.mono hn.2.le, fun hdvd => ?_⟩
  have := Int.le_of_dvd h0 hdvd
  omega

theorem Signer.first_spec (hg : g.Ok) {k x : c.format.Digits} (hx : g.mulmodBase k = .ok x) :
    c.format.Below c.n (c.subOrder (norm c.format.b x)) ∧
      value c.format.b (c.subOrder (norm c.format.b x)) ≡ value c.format.b x [ZMOD c.n] := by
  have hn := c.n_bounds
  have hR := c.R_le_radix
  have hpos := c.R_pos
  obtain ⟨h0, h1⟩ := hg.range hx
  obtain ⟨hbelow, hval⟩ := norm_below (c := c.R) (by omega) (hg.length hx) (hg.between hx) h0 h1
  rw [← hval]
  exact Curve.subOrder_spec (u := c.n) (hbelow.mono (by omega)) le_rfl (by omega)

/-- **One attempt** gives a signature or nothing. -/
theorem Signer.attempt_signed (hg : g.Ok) {i : Nat} {k r s : c.format.Digits} (hk : c.Nonce k)
    (h : g.attempt i k = .ok (some (r, s))) : g.Signed k r s := by
  have hn := c.n_bounds
  unfold Signer.attempt at h
  cases hx : g.mulmodBase k with
  | error e =>
    rw [hx] at h
    cases h
  | ok x =>
    obtain ⟨hfirst, hmod⟩ := Signer.first_spec hg hx
    rw [hx] at h
    dsimp only at h
    split at h
    · cases h
    · rename_i hr0
      obtain ⟨hsecond, heq⟩ := Curve.calcS_mul (g.td i) (hfirst.mono hn.2.le) hk.below hk.unit hg.priv
        (c.hashNumber_spec g.hash).1
      split at h
      · cases h
      · rename_i hs0
        cases h
        have hrne := mt (iszero_iff hfirst.canon).2 hr0
        have hsne := mt (iszero_iff hsecond.canon).2 hs0
        have hrnn := hfirst.nonneg
        have hsnn := hsecond.nonneg
        exact ⟨hk, ⟨x, hx, hmod⟩, hfirst, by omega, hsecond, by omega, heq⟩

theorem Signer.attempt_usable (hg : g.Ok) (i : Nat) {k x : c.format.Digits} (hk : c.Nonce k)
    (hx : g.mulmodBase k = .ok x) (hx0 : ¬ c.n ∣ value c.format.b x)
    (hs0 : ¬ c.n ∣ value c.format.b (c.hashNumber g.hash) + value c.format.b g.priv * value c.format.b x) :
    ∃ r s, g.attempt i k = .ok (some (r, s)) ∧ ¬ c.n ∣ value c.format.b s := by
  have hn := c.n_bounds
  obtain ⟨hfirst, hmod⟩ := Signer.first_spec hg hx
  obtain ⟨hsecond, heq⟩ := Curve.calcS_mul (g.td i) (hfirst.mono hn.2.le) hk.below hk.unit hg.priv
    (c.hashNumber_spec g.hash).1
  have hr : ¬ iszero (c.subOrder (norm c.format.b x)) = true := by
    intro hzero
    rw [(iszero_iff hfirst.canon).1 hzero] at hmod
    exact hx0 (Int.modEq_zero_iff_dvd.1 hmod.symm)
  have hs : ¬ c.n ∣ value c.format.b (c.calcS (g.td i) (c.subOrder (norm c.format.b x)) k g.priv (c.hashNumber g.hash)) := by
    intro hdvd
    refine hs0 (Int.modEq_zero_iff_dvd.1 ?_)
    calc value c.format.b (c.hashNumber g.hash) + value c.format.b g.priv * value c.format.b x
        ≡ value c.format.b (c.hashNumber g.hash) +
            value c.format.b g.priv * value c.format.b (c.subOrder (norm c.format.b x)) [ZMOD c.n] :=
          ((hmod.symm.mul_left _).add_left _)
      _ ≡ 0 [ZMOD c.n] := heq.symm.trans (Int.modEq_zero_iff_dvd.2 (hdvd.mul_right _))
  have hsz : ¬ iszero (c.calcS (g.td i) (c.subOrder (norm c.format.b x)) k g.priv (c.hashNumber g.hash)) = true := by
    intro hzero
    exact hs (by rw [(iszero_iff hsecond.canon).1 hzero]; exact dvd_zero _)
  refine ⟨c.subOrder (norm c.format.b x), _, ?_, hs⟩
  unfold Signer.attempt
  rw [hx]
  dsimp only
  rw [if_neg hr, if_neg hsz]

/-- Where the nonce of a signature came from: it was given, or it is of the last block that was drawn. -/
def Curve.From (c : Curve) (km : Option c.format.Digits) (rng rest : Rng) (k : c.format.Digits) : Prop :=
  (km = some k ∧ rest = rng) ∨ ∃ used buf, rng = used ++ .ok buf :: rest ∧ c.format.Below c.n k ∧
    value c.format.b k = beNat (c.trim buf) + 1

theorem Curve.nonce_spec {km : Option c.format.Digits} {rng rest : Rng} {k : c.format.Digits} (hrng : c.Blocks rng)
    (hkm : ∀ k, km = some k → c.Nonce k) (h : c.nonce km rng = some (.ok k, rest)) : c.Nonce k ∧ c.From km rng rest k := by
  cases km with
  | some k' =>
    cases h
    exact ⟨hkm k rfl, .inl ⟨rfl, rfl⟩⟩
  | none =>
    obtain ⟨used, buf, hrest, -, hbelow, hval⟩ := Curve.genK_spec hrng h
    exact ⟨Curve.nonce_of_below hbelow (by omega), .inr ⟨used, buf, hrest, hbelow, hval⟩⟩

/-- A nonce that is drawn after others is drawn from the same answers. -/
theorem Curve.From.after {km : Option c.format.Digits} {rng mid rest : Rng} {k k' : c.format.Digits}
    (h : c.From km rng mid k) (h' : c.From none mid rest k') : c.From km rng rest k' := by
  rcases h' with ⟨hnone, -⟩ | ⟨used, buf, hmid, hbelow, hval⟩
  · cases hnone
  · rcases h with ⟨-, rfl⟩ | ⟨used', buf', hrng, -, -⟩
    · exact .inr ⟨used, buf, hmid, hbelow, hval⟩
    · exact .inr ⟨used' ++ .ok buf' :: used, buf, by rw [hrng, hmid]; simp, hbelow, hval⟩

theorem Curve.From.blocks {km : Option c.format.Digits} {rng rest : Rng} {k : c.format.Digits} (h : c.From km rng rest k)
    (hrng : c.Blocks rng) : c.Blocks rest := by
  rcases h with ⟨-, rfl⟩ | ⟨used, buf, hrest, -, -⟩
  · exact hrng
  · intro b hb
    exact hrng b (by rw [hrest]; exact List.mem_append_right _ (List.mem_cons_of_mem _ hb))

/-- **All attempts**: the loop gives a signature, with a nonce no other attempt had. -/
theorem Signer.signLoop_signed (hg : g.Ok) {r s : c.format.Digits} {rest : Rng} :
    ∀ (i : Nat) {km : Option c.format.Digits} {rng : Rng}, c.Blocks rng → (∀ k, km = some k → c.Nonce k) →
      g.signLoop i km rng = some (.ok (r, s), rest) → ∃ k, g.Signed k r s ∧ c.From km rng rest k
  | 0, _, _, _, _, h => by cases h
  | i + 1, km, rng, hrng, hkm, h => by
    rw [Signer.signLoop] at h
    split at h
    · cases h
    · cases h
    · rename_i k mid hnonce
      obtain ⟨hk, hfrom⟩ := Curve.nonce_spec hrng hkm hnonce
      split at h
      · cases h
      · rename_i rs hattempt
        cases h
        exact ⟨k, Signer.attempt_signed hg hk hattempt, hfrom⟩
      · obtain ⟨k', hsigned, hfrom'⟩ := Signer.signLoop_signed hg i (hfrom.blocks hrng) (fun _ hnone => by cases hnone) h
        exact ⟨k', hsigned, hfrom.after hfrom'⟩

theorem Signer.sign_of_nonce (hg : g.Ok) {km : Option c.format.Digits} {rng rest : Rng} {k x : c.format.Digits}
    (hnonce : c.nonce km rng = some (.ok k, rest)) (hk : c.Nonce k) (hx : g.mulmodBase k = .ok x)
    (hx0 : ¬ c.n ∣ value c.format.b x)
    (hs0 : ¬ c.n ∣ value c.format.b (c.hashNumber g.hash) + value c.format.b g.priv * value c.format.b x) :
    ∃ r s, g.sign km rng = some (.ok (r, s), rest) ∧ g.Signed k r s ∧ ¬ c.n ∣ value c.format.b s := by
  obtain ⟨r, s, hattempt, hs⟩ := Signer.attempt_usable hg 64 hk hx hx0 hs0
  exact ⟨r, s, by rw [Signer.sign, Signer.signLoop, hnonce]; simp only [hattempt], Signer.attempt_signed hg hk hattempt, hs⟩

/-- The x ordinate of the base point, and the number one. -/
def Curve.baseX : (c : Curve) → c.format.Digits
  | .p256 => [0x13945d898c296#64, 0x812deb33a0f4a#64, 0x3a440f277037d#64, 0x4247f8bce6e56#64, 0x06b17d1f2e12c#64]
  | .p384 => [0x545e3872760ab7#64, 0x64bb7eaa52d874#64, 0x020950a8e1540b#64, 0x5d3cdcc2cfba0f#64, 0x0ad746e1d3b628#64,
      0x26f1d638e3de64#64, 0x2aa1f288afa2c1#64]
  | .p521 => [0x17e7e31c2e5bd66#64, 0x22cf0615a90a6fe#64, 0x0127a2ffa8de334#64, 0x1dfbf9d64a3f877#64,
      0x06b4d3dbaa14b5e#64, 0x14fed487e0a2bd8#64, 0x15b4429c6481390#64, 0x3a73678fb2d988e#64, 0x0c6858e06b70404#64]

def Curve.one : (c : Curve) → c.format.Digits
  | .p256 => 1#64 :: List.replicate 4 0#64
  | .p384 => 1#64 :: List.replicate 6 0#64
  | .p521 => 1#64 :: List.replicate 8 0#64

/-- A signer that knows the base point itself, the product of the nonce one, and no other. -/
def baseSigner (c : Curve) : Signer c where
  mulmodBase k := if k = c.one then .ok c.baseX else .error (-1)
  td _ _ := []
  priv := c.normOrder
  hash := [0xde, 0xad, 0xbe, 0xef]

theorem Curve.normOrder_unit (c : Curve) : ¬ c.n ∣ value c.format.b c.normOrder := by
  have hn := c.n_bounds
  rw [c.normOrder_value]
  intro hdvd
  have := Int.le_of_dvd (by omega) hdvd
  omega

theorem Curve.one_below (c : Curve) : c.format.Below c.n c.one := by
  cases c <;> exact ⟨rfl, by decide +kernel, by decide +kernel⟩

theorem Curve.one_value (c : Curve) : value c.format.b c.one = 1 := by
  cases c <;> decide +kernel

theorem Curve.one_nonce (c : Curve) : c.Nonce c.one :=
  Curve.nonce_of_below c.one_below (by rw [c.one_value]; exact Int.one_pos)

theorem Curve.baseX_below (c : Curve) : c.format.Below c.R c.baseX := by
  cases c <;> exact ⟨rfl, by decide +kernel, by decide +kernel⟩

theorem Curve.baseX_unit (c : Curve) : ¬ c.n ∣ value c.format.b c.baseX := by
  cases c <;> decide +kernel

theorem baseSigner_one (c : Curve) : (baseSigner c).mulmodBase c.one = .ok c.baseX := if_pos rfl

theorem baseSigner_eq {c : Curve} {k x : c.format.Digits} (h : (baseSigner c).mulmodBase k = .ok x) :
    k = c.one ∧ x = c.baseX := by
  simp only [baseSigner] at h
  split at h
  · rename_i hone
    cases h
    exact ⟨hone, rfl⟩
  · cases h

theorem baseSigner_ok (c : Curve) : (baseSigner c).Ok := by
  have hpos := two_pow_pos c.format.b
  have hx := c.baseX_below
  refine ⟨c.normOrder_below, fun h => ?_, fun h => ?_, fun h => ?_⟩
  · rw [(baseSigner_eq h).2]
    exact hx.length
  · rw [(baseSigner_eq h).2]
    exact Between.mono hx.canon (by omega) (by omega)
  · rw [(baseSigner_eq h).2]
    exact ⟨hx.nonneg, hx.lt⟩

theorem baseSigner_sum (c : Curve) : ¬ c.n ∣ value c.format.b (c.hashNumber (baseSigner c).hash) +
    value c.format.b (baseSigner c).priv * value c.format.b c.baseX := by
  cases c <;> decide +kernel

/-- **A signature that signing returns** solves the equation for a nonce that was given or is of the last block drawn. -/
theorem Signer.sign_signed (hg : g.Ok) {km : Option c.format.Digits} {rng rest : Rng} {r s : c.format.Digits}
    (hrng : c.Blocks rng) (hkm : ∀ k, km = some k → c.Nonce k) (h : g.sign km rng = some (.ok (r, s), rest)) :
    ∃ k, g.Signed k r s ∧ c.From km rng rest k := Signer.signLoop_signed hg 64 hrng hkm h

/-- A block of zeros is the nonce one. -/
theorem Signer.sign_signed_zeros : ∃ r s, (baseSigner .p256).Signed Curve.p256.one r s ∧
    Curve.p256.From none [.ok (List.replicate 32 0)] [] Curve.p256.one := by
  have hblocks : Curve.p256.Blocks [.ok (List.replicate 32 0)] := Curve.blocks_singleton rfl
  have hnonce : Curve.p256.nonce none [.ok (List.replicate 32 0)] = some (.ok Curve.p256.one, []) := by decide +kernel
  obtain ⟨r, s, hsign, -⟩ := Signer.sign_of_nonce (baseSigner_ok .p256) hnonce (Curve.one_nonce .p256)
    (baseSigner_one .p256) (Curve.baseX_unit .p256) (baseSigner_sum .p256)
  obtain ⟨k, hsigned, hfrom⟩ := Signer.sign_signed (baseSigner_ok .p256) hblocks (fun _ hnone => by cases hnone) hsign
  -- the signer knows no other nonce
  obtain ⟨x, hx, -⟩ := hsigned.point
  rw [(baseSigner_eq hx).1] at hsigned hfrom
  exact ⟨r, s, hsigned, hfrom⟩

/-- **Signing with a nonce that is given** draws nothing: it succeeds if the ordinate and the sum of the hash and the
product of the key are not zero modulo the order. -/
theorem Signer.sign_given (hg : g.Ok) {k x : c.format.Digits} (hk : c.Nonce k) (hx : g.mulmodBase k = .ok x)
    (hx0 : ¬ c.n ∣ value c.format.b x)
    (hs0 : ¬ c.n ∣ value c.format.b (c.hashNumber g.hash) + value c.format.b g.priv * value c.format.b x) (rng : Rng) :
    ∃ r s, g.sign (some k) rng = some (.ok (r, s), rng) ∧ g.Signed k r s := by
  have hnonce : c.nonce (some k) rng = some (.ok k, rng) := rfl
  obtain ⟨r, s, hsign, hsigned, -⟩ := Signer.sign_of_nonce hg hnonce hk hx hx0 hs0
  exact ⟨r, s, hsign, hsigned⟩

theorem Signer.sign_given_one : ∃ r s, (baseSigner .p521).sign (some Curve.p521.one) [] = some (.ok (r, s), []) ∧
    (baseSigner .p521).Signed Curve.p521.one r s :=
  Signer.sign_given (baseSigner_ok .p521) (Curve.one_nonce .p521) (baseSigner_one .p521) (Curve.baseX_unit .p521)
    (baseSigner_sum .p521) []

theorem Signer.attempt_temporaries (g : Signer c) (td : Nat → Reg → c.format.Digits) (i : Nat) (k : c.format.Digits) :
    ({ g with td := td } : Signer c).attempt i k = g.attempt i k := by
  have hs : ∀ r, c.calcS (td i) r k g.priv (c.hashNumber g.hash) = c.calcS (g.td i) r k g.priv (c.hashNumber g.hash) := by
    intro r
    unfold Curve.calcS
    dsimp only
    rw [c.montInvOrder_temporaries (td i) (g.td i)]
  simp only [Signer.attempt, hs]

theorem Signer.signLoop_temporaries (g : Signer c) (td : Nat → Reg → c.format.Digits) :
    ∀ (i : Nat) (km : Option c.format.Digits) (rng : Rng),
      ({ g with td := td } : Signer c).signLoop i km rng = g.signLoop i km rng
  | 0, _, _ => rfl
  | i + 1, km, rng => by
    rw [Signer.signLoop, Signer.signLoop]
    simp only [Signer.attempt_temporaries, Signer.signLoop_temporaries g td i]

/-- **A signature does not depend on what the temporaries held**, in any of the attempts. -/
theorem Signer.sign_temporaries (g : Signer c) (td : Nat → Reg → c.format.Digits) (km : Option c.format.Digits)
    (rng : Rng) : ({ g with td := td } : Signer c).sign km rng = g.sign km rng := Signer.signLoop_temporaries g td 64 km rng

end Signing

/-! ## Verifying -/

section Verifying

variable {c : Curve}

theorem Curve.oddModulus (c : Curve) : OddModulus c.format c.order := ⟨c.modulus.toBelow, c.n_odd⟩

theorem Curve.isCoprime_of_prime {v : Int} (hv : ¬ c.n ∣ v) : IsCoprime c.n v :=
  c.n_isPrime.irreducible.coprime_iff_not_dvd.2 hv

theorem Curve.cancel_unit {v x y : Int} (hv : ¬ c.n ∣ v) (h : v * x ≡ v * y [ZMOD c.n]) : x ≡ y [ZMOD c.n] := by
  rw [Int.modEq_iff_dvd] at h ⊢
  rw [← mul_sub] at h
  exact (Curve.isCoprime_of_prime hv).dvd_of_dvd_mul_left h

theorem Curve.one_lt_n (c : Curve) : 1 < c.n := by
  have := c.n_prime.one_lt
  omega

theorem Curve.modInv_spec {s : c.format.Digits} (hs : c.format.Below c.format.radix s) (hs0 : ¬ c.n ∣ value c.format.b s)
    {fuel : Nat} (hfuel : 2 * (c.format.b * c.format.n) ≤ fuel) :
    ∃ t, modInv c.format fuel s c.order = some t ∧ t.length = c.format.n ∧ Between 0 (2 * 2 ^ c.format.b) t ∧
      value c.format.b t < c.n ∧ value c.format.b t * value c.format.b s ≡ 1 [ZMOD c.n] := by
  have hw : c.format.w = 64 := by cases c <;> rfl
  have hspos : 0 < value c.format.b s := by
    have : value c.format.b s ≠ 0 := fun h => hs0 (by rw [h]; exact dvd_zero _)
    have := hs.nonneg
    omega
  exact modInv_inverse hw c.oddModulus c.one_lt_n hs hspos (Curve.isCoprime_of_prime hs0) hfuel

/-- **The inverse that verifying takes** is the one below the order, and it is found with as many passes for each loop of
`mod_inv`, counted for every time the loop is entered, as two numbers of the curve have bits. -/
theorem Curve.modInv_order (c : Curve) {s : c.format.Digits} (hs : c.format.Below c.format.radix s)
    (hs0 : ¬ c.n ∣ value c.format.b s) {fuel : Nat} (hfuel : 2 * (c.format.b * c.format.n) ≤ fuel) :
    ∃ t, modInv c.format fuel s c.order = some t ∧ 0 < value c.format.b t ∧ value c.format.b t < c.n ∧
      value c.format.b t * value c.format.b s ≡ 1 [ZMOD c.n] := by
  obtain ⟨t, ht, -, hbetween, hlt, hinv⟩ := Curve.modInv_spec hs hs0 hfuel
  have h0 := hbetween.value_nonneg (b := c.format.b)
  refine ⟨t, ht, lt_of_le_of_ne h0 fun hzero => ?_, hlt, hinv⟩
  rw [← hzero, zero_mul] at hinv
  have hdvd := Int.le_of_dvd Int.one_pos (Int.modEq_zero_iff_dvd.1 hinv.symm)
  have := c.one_lt_n
  omega

theorem Curve.modInv_order_normOrder : ∃ t, modInv p256Format 520 p256NormOrder p256Order = some t ∧
    0 < value p256Format.b t ∧ value p256Format.b t < Curve.p256.n ∧
    value p256Format.b t * value p256Format.b p256NormOrder ≡ 1 [ZMOD Curve.p256.n] :=
  Curve.modInv_order .p256 (Curve.normOrder_below .p256).below_radix (Curve.normOrder_unit .p256) le_rfl

/-- One scalar, from the inverse `t` of `s` in Montgomery form: the product takes the radix off. -/
theorem Curve.scalar_spec {t u : c.format.Digits} {s : Int} (ht : c.format.Below c.R t)
    (hinv : value c.format.b t * s ≡ c.R [ZMOD c.n]) (hu : c.format.Below c.R u) :
    c.format.Below c.R (c.montMulOrder u t) ∧ s * value c.format.b (c.montMulOrder u t) ≡ value c.format.b u [ZMOD c.n] := by
  have hn := c.n_bounds
  obtain ⟨hbelow, hmod⟩ := Curve.montMulOrder_mod (u := c.R) ⟨le_rfl, by omega⟩ hu ht
  refine ⟨hbelow, Curve.cancel_R ?_⟩
  calc c.R * (s * value c.format.b (c.montMulOrder u t))
      = s * (c.R * value c.format.b (c.montMulOrder u t)) := by ring
    _ ≡ s * (value c.format.b u * value c.format.b t) [ZMOD c.n] := hmod.mul_left _
    _ = value c.format.b u * (value c.format.b t * s) := by ring
    _ ≡ value c.format.b u * c.R [ZMOD c.n] := hinv.mul_left _
    _ = c.R * value c.format.b u := by ring

/-- **The scalars of a verification**: both times the second half are the hash and the first half. -/
theorem Curve.vfyScalars_mul {s u1 u2 : c.format.Digits} (hs : c.format.Below (2 * c.R) s)
    (hs0 : ¬ c.n ∣ value c.format.b s) (hu1 : c.format.Below c.R u1) (hu2 : c.format.Below c.R u2) {fuel : Nat}
    (hfuel : 2 * (c.format.b * c.format.n) ≤ fuel) :
    ∃ v1 v2, c.vfyScalars fuel s u1 u2 = some (v1, v2) ∧
      value c.format.b s * value c.format.b v1 ≡ value c.format.b u1 [ZMOD c.n] ∧
      value c.format.b s * value c.format.b v2 ≡ value c.format.b u2 [ZMOD c.n] := by
  have hn := c.n_bounds
  have hpos := c.R_pos
  obtain ⟨t, ht, hlen, hbetween, hlt, hinv⟩ := Curve.modInv_spec hs.below_radix hs0 hfuel
  obtain ⟨hm, hmmod⟩ := Curve.toMont_spec hlen hbetween (by omega)
  have hmont : value c.format.b (c.toMont t) * value c.format.b s ≡ c.R [ZMOD c.n] := by
    calc value c.format.b (c.toMont t) * value c.format.b s
        ≡ c.R * value c.format.b t * value c.format.b s [ZMOD c.n] := hmmod.mul_right _
      _ = c.R * (value c.format.b t * value c.format.b s) := by ring
      _ ≡ c.R * 1 [ZMOD c.n] := Int.ModEq.mul_left _ hinv
      _ = c.R := mul_one _
  exact ⟨_, _, by rw [Curve.vfyScalars, ht]; rfl, (Curve.scalar_spec hm hmont hu1).2, (Curve.scalar_spec hm hmont hu2).2⟩

theorem smul_of_modEq {E : Type*} [AddCommGroup E] {p : E} {n x y : Int} (hp : n • p = 0) (h : x ≡ y [ZMOD n]) :
    x • p = y • p := by
  obtain ⟨q, hq⟩ := Int.modEq_iff_dvd.1 h
  have hy : y = x + q * n := by linarith
  rw [hy, add_smul, mul_smul, hp, smul_zero, add_zero]

theorem Signer.Signed.recover {g : Signer c} {k r s v1 v2 : c.format.Digits} (h : g.Signed k r s)
    (hs0 : ¬ c.n ∣ value c.format.b s)
    (h1 : value c.format.b s * value c.format.b v1 ≡ value c.format.b (c.hashNumber g.hash) [ZMOD c.n])
    (h2 : value c.format.b s * value c.format.b v2 ≡ value c.format.b r [ZMOD c.n]) :
    value c.format.b v1 + value c.format.b v2 * value c.format.b g.priv ≡ value c.format.b k [ZMOD c.n] := by
  have hmul : value c.format.b s * (value c.format.b v1 + value c.format.b v2 * value c.format.b g.priv) ≡
      value c.format.b s * value c.format.b k [ZMOD c.n] := by
    calc value c.format.b s * (value c.format.b v1 + value c.format.b v2 * value c.format.b g.priv)
        = value c.format.b s * value c.format.b v1 +
            value c.format.b g.priv * (value c.format.b s * value c.format.b v2) := by ring
      _ ≡ value c.format.b (c.hashNumber g.hash) + value c.format.b g.priv * value c.format.b r [ZMOD c.n] :=
        h1.add (h2.mul_left _)
      _ ≡ value c.format.b s * value c.format.b k [ZMOD c.n] := h.eq.symm
  exact Curve.cancel_unit hs0 hmul

/-- **What was signed is verified**: in any group where the order takes the base point to zero, the scalars that verifying
makes of a signature lead back to the point of the nonce, whose ordinate is the first half. -/
theorem Signer.sign_verifies {g : Signer c} (hg : g.Ok) {E : Type*} [AddCommGroup E] {p : E} (hp : c.n • p = 0)
    {km : Option c.format.Digits} {rng rest : Rng} {r s : c.format.Digits} (hrng : c.Blocks rng)
    (hkm : ∀ k, km = some k → c.Nonce k) (h : g.sign km rng = some (.ok (r, s), rest))
    (hs0 : ¬ c.n ∣ value c.format.b s) {fuel : Nat} (hfuel : 2 * (c.format.b * c.format.n) ≤ fuel) :
    ∃ k x v1 v2, c.From km rng rest k ∧ g.mulmodBase k = .ok x ∧ value c.format.b r ≡ value c.format.b x [ZMOD c.n] ∧
      c.vfyScalars fuel s (c.hashNumber g.hash) r = some (v1, v2) ∧
      value c.format.b v1 • p + value c.format.b v2 • (value c.format.b g.priv • p) = value c.format.b k • p := by
  have hn := c.n_bounds
  have hpos := c.R_pos
  obtain ⟨k, hsigned, hfrom⟩ := Signer.signLoop_signed hg 64 hrng hkm h
  obtain ⟨x, hx, hr⟩ := hsigned.point
  obtain ⟨v1, v2, hv, h1, h2⟩ := Curve.vfyScalars_mul (hsigned.second.mono (by omega)) hs0
    (c.hashNumber_spec g.hash).1 (hsigned.first.mono hn.2.le) hfuel
  refine ⟨k, x, v1, v2, hfrom, hx, hr, hv, ?_⟩
  rw [← mul_smul, ← add_smul]
  exact smul_of_modEq hp (hsigned.recover hs0 h1 h2)

theorem Signer.sign_verifies_one : ∃ r s k x v1 v2, Curve.p256.From (some Curve.p256.one) [] [] k ∧
    (baseSigner .p256).mulmodBase k = .ok x ∧ value p256Format.b r ≡ value p256Format.b x [ZMOD Curve.p256.n] ∧
    Curve.p256.vfyScalars 520 s (Curve.p256.hashNumber [0xde, 0xad, 0xbe, 0xef]) r = some (v1, v2) ∧
    value p256Format.b v1 • (1 : ZMod Curve.p256.n.toNat) +
        value p256Format.b v2 • (value p256Format.b p256NormOrder • (1 : ZMod Curve.p256.n.toNat)) =
      value p256Format.b k • (1 : ZMod Curve.p256.n.toNat) := by
  have hgroup : Curve.p256.n • (1 : ZMod Curve.p256.n.toNat) = 0 := by
    rw [zsmul_one, ← Int.cast_zero]
    exact Curve.cast_eq_iff.2 (Int.modEq_zero_iff_dvd.2 dvd_rfl)
  have hfirst : Curve.p256.nonce (some Curve.p256.one) [] = some (.ok Curve.p256.one, []) := rfl
  obtain ⟨r, s, hsign, -, hs0⟩ := Signer.sign_of_nonce (baseSigner_ok .p256) hfirst (Curve.one_nonce .p256)
    (baseSigner_one .p256) (Curve.baseX_unit .p256) (baseSigner_sum .p256)
  have hgiven : ∀ k, some Curve.p256.one = some k → Curve.p256.Nonce k := by
    rintro k ⟨⟩
    exact Curve.one_nonce .p256
  have hempty : Curve.p256.Blocks [] := fun buf hbuf => by cases hbuf
  exact ⟨r, s, Signer.sign_verifies (baseSigner_ok .p256) hgroup hempty hgiven hsign hs0 le_rfl⟩

end Verifying

end Sp
end Wolf
