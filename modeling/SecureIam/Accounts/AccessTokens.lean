import Mathlib.Data.Rat.Floor
import SecureIam.Core.Security

/-!
How long an access token is accepted. A reading of the clock is an exact rational number
of seconds here; the claims of the token are whole seconds.
-/
namespace SecureIam

/-- PyJWT with the key and the algorithm of the application. -/
structure Jwt (Token : Type) where
  encode : AccessClaims → Token
  decode : (issuer : String) → (now : ℚ) → Token → Option AccessClaims

variable {Token : Type} {jwt : Jwt Token} {env : Environment} {t₀ t x : ℚ} {userId jti : String}

/-- No leeway: a token that has expired, or that is not yet issued, is rejected. -/
def Jwt.Checks (jwt : Jwt Token) : Prop :=
  ∀ claims now, jwt.decode claims.iss now (jwt.encode claims) =
    if claims.exp ≤ now ∨ now < claims.iat then none else some claims

/-- `int(x)` of a timestamp: its fraction is dropped. -/
def intOf (x : ℚ) : ℤ := if 0 ≤ x then ⌊x⌋ else ⌈x⌉

/-- The payload of `create_access_token` at the instant `now`. -/
def accessClaims (env : Environment) (userId jti : String) (now : ℚ) : AccessClaims where
  sub := userId
  type := "access"
  iat := intOf now
  exp := intOf (now + env.settings.accessTokenTtlMinutes * 60)
  jti := jti
  iss := env.settings.jwtIssuer

def createAccessTokenAt (jwt : Jwt Token) (env : Environment) (userId jti : String) (now : ℚ) :
    Token :=
  jwt.encode (accessClaims env userId jti now)

/-- `none` is the `TokenValidationError`. -/
def decodeAccessTokenAt (jwt : Jwt Token) (env : Environment) (now : ℚ) (token : Token) :
    Option AccessClaims :=
  jwt.decode env.settings.jwtIssuer now token

theorem intOf_intCast (n : ℤ) : intOf n = n := by
  simp [intOf]

theorem intOf_of_nonneg (h : 0 ≤ x) : intOf x = ⌊x⌋ := if_pos h

/-- Whole microseconds, cut to seconds. -/
theorem intOf_microseconds {now : Time} (h : 0 ≤ now) :
    intOf (now / 1000000) = now / Time.second := by
  have hnonneg : 0 ≤ (now / 1000000 : ℚ) := div_nonneg (Int.cast_nonneg h) (by norm_num)
  rw [intOf_of_nonneg hnonneg]
  exact_mod_cast Rat.floor_intCast_div_natCast now 1000000

/-- After the epoch, a clock that counts microseconds makes no difference: these are the claims
that the services encode. -/
theorem accessClaims_microseconds {now : Time} (h : 0 ≤ now)
    (httl : 0 ≤ env.settings.accessTokenTtlMinutes) (userId : String) (id : Uuid) :
    accessClaims env userId (toString id) (now / 1000000) = accessPayload env userId now id := by
  have hexp : (now / 1000000 + env.settings.accessTokenTtlMinutes * 60 : ℚ) =
      ((now + env.settings.accessTokenTtlMinutes * 60 * Time.second : ℤ) : ℚ) / 1000000 := by
    simp only [Time.second, Int.cast_add, Int.cast_mul, Int.cast_ofNat]
    ring
  have hlater : 0 ≤ now + env.settings.accessTokenTtlMinutes * 60 * Time.second :=
    add_nonneg h (mul_nonneg (mul_nonneg httl (by decide)) (by decide))
  rw [accessClaims, hexp, intOf_microseconds h, intOf_microseconds hlater]
  rfl

/-- What a client concludes from `expires_in`: the token is accepted for so long, and not
any longer. -/
def LivesAsAdvertised (jwt : Jwt Token) (env : Environment) (t₀ : ℚ) : Prop :=
  ∀ userId jti t,
    (t₀ ≤ t → t < t₀ + accessTokenTtlSeconds env →
      decodeAccessTokenAt jwt env t (createAccessTokenAt jwt env userId jti t₀) =
        some (accessClaims env userId jti t₀)) ∧
    (t₀ + accessTokenTtlSeconds env ≤ t →
      decodeAccessTokenAt jwt env t (createAccessTokenAt jwt env userId jti t₀) = none)

theorem decode_created (hjwt : jwt.Checks) (env : Environment) (userId jti : String) (t₀ t : ℚ) :
    decodeAccessTokenAt jwt env t (createAccessTokenAt jwt env userId jti t₀) =
      if intOf t₀ ≤ t ∧ t < intOf (t₀ + accessTokenTtlSeconds env) then some
        (accessClaims env userId jti t₀)
      else none := by
  have hexp : (accessClaims env userId jti t₀).exp = intOf (t₀ + accessTokenTtlSeconds env) := by
    simp [accessClaims, accessTokenTtlSeconds]
  have hchecks := hjwt (accessClaims env userId jti t₀) t
  rw [hexp] at hchecks
  have hiat : (accessClaims env userId jti t₀).iat = intOf t₀ := rfl
  rw [hiat] at hchecks
  refine hchecks.trans ?_
  by_cases haccepted : intOf t₀ ≤ t ∧ t < intOf (t₀ + accessTokenTtlSeconds env)
  · rw [if_pos haccepted, if_neg (not_or.mpr ⟨not_le.mpr haccepted.2, not_lt.mpr haccepted.1⟩)]
  · rw [if_neg haccepted, if_pos]
    by_contra hnone
    obtain ⟨hexp', hiat'⟩ := not_or.mp hnone
    exact haccepted ⟨not_lt.mp hiat', not_le.mp hexp'⟩

theorem accepted_iff (hjwt : jwt.Checks) :
    decodeAccessTokenAt jwt env t (createAccessTokenAt jwt env userId jti t₀) =
      some (accessClaims env userId jti t₀) ↔ intOf t₀ ≤ t ∧
        t < intOf (t₀ + accessTokenTtlSeconds env) := by
  rw [decode_created hjwt]
  simp

theorem rejected_iff (hjwt : jwt.Checks) :
    decodeAccessTokenAt jwt env t (createAccessTokenAt jwt env userId jti t₀) = none ↔
      ¬ (intOf t₀ ≤ t ∧ t < intOf (t₀ + accessTokenTtlSeconds env)) := by
  rw [decode_created hjwt]
  simp

/-- The instants are those of a token issued at a full second. -/
theorem livesAsAdvertised_iff (hjwt : jwt.Checks) (httl : 0 < accessTokenTtlSeconds env) :
    LivesAsAdvertised jwt env t₀ ↔ ∃ n : ℤ, t₀ = n := by
  have hpos : (0 : ℚ) < accessTokenTtlSeconds env := Int.cast_pos.mpr httl
  constructor
  · intro h
    have hissue := ((accepted_iff hjwt).mp ((h "" "" t₀).1 le_rfl (by linarith)))
    have hend := (rejected_iff hjwt).mp ((h "" "" (t₀ + accessTokenTtlSeconds env)).2 le_rfl)
    have hle : (intOf (t₀ + accessTokenTtlSeconds env) : ℚ) ≤ t₀ + accessTokenTtlSeconds env := by
      by_contra hlt
      exact hend ⟨by linarith [hissue.1], not_le.mp hlt⟩
    have heq : (intOf (t₀ + accessTokenTtlSeconds env) : ℚ) = t₀ + accessTokenTtlSeconds env := by
      by_contra hne
      have hlt := lt_of_le_of_ne hle hne
      have hlast := (accepted_iff hjwt).mp
        ((h "" "" (intOf (t₀ + accessTokenTtlSeconds env))).1 hissue.2.le hlt)
      exact lt_irrefl _ hlast.2
    refine ⟨intOf (t₀ + accessTokenTtlSeconds env) - accessTokenTtlSeconds env, ?_⟩
    rw [Int.cast_sub, heq]
    ring
  · intro hwhole
    obtain ⟨n, rfl⟩ := hwhole
    have hexp : intOf ((n : ℚ) + accessTokenTtlSeconds env) = n + accessTokenTtlSeconds env := by
      rw [← Int.cast_add, intOf_intCast]
    intro userId jti t
    rw [accepted_iff hjwt, rejected_iff hjwt, hexp, intOf_intCast, Int.cast_add]
    exact ⟨fun hle hlt => ⟨hle, hlt⟩, fun hle haccepted => absurd haccepted.2 (not_lt.mpr hle)⟩

/-- A token is accepted for its lifetime less the fraction of a second at which it was
issued, which is as long as advertised only for a token issued at a full second. The tokens are
those of `create_access_token`. -/
theorem access_token_lifetime (hjwt : jwt.Checks) (httl : 1 ≤ env.settings.accessTokenTtlMinutes) :
    (∀ userId jti t, decodeAccessTokenAt jwt env t (createAccessTokenAt jwt env userId jti t₀) =
      if intOf t₀ ≤ t ∧ t < intOf (t₀ + accessTokenTtlSeconds env) then
        some (accessClaims env userId jti t₀)
      else none) ∧
    (0 ≤ t₀ → ∀ userId jti t, t₀ ≤ t →
      (t < t₀ + accessTokenTtlSeconds env - Int.fract t₀ →
        decodeAccessTokenAt jwt env t (createAccessTokenAt jwt env userId jti t₀) =
          some (accessClaims env userId jti t₀)) ∧
      (t₀ + accessTokenTtlSeconds env - Int.fract t₀ ≤ t →
        decodeAccessTokenAt jwt env t (createAccessTokenAt jwt env userId jti t₀) = none)) ∧
    (LivesAsAdvertised jwt env t₀ ↔ ∃ n : ℤ, t₀ = n) ∧
    ∀ userId id (now : Time), 0 ≤ now → createAccessTokenAt jwt env userId (toString id)
      (now / 1000000) = jwt.encode (accessPayload env userId now id) := by
  have hpos : 0 < accessTokenTtlSeconds env := by
    simp only [accessTokenTtlSeconds]
    omega
  refine ⟨fun userId jti t => decode_created hjwt env userId jti t₀ t,
    fun hnonneg userId jti t ht => ?_, livesAsAdvertised_iff hjwt hpos, fun userId id now hnow =>
      congrArg jwt.encode (accessClaims_microseconds hnow (by omega) userId id)⟩
  have hexp : (intOf (t₀ + accessTokenTtlSeconds env) : ℚ) = t₀ + accessTokenTtlSeconds env -
      Int.fract t₀ := by
    rw [intOf_of_nonneg (add_nonneg hnonneg (Int.cast_nonneg hpos.le)), Int.floor_add_intCast,
      Int.cast_add, ← Int.self_sub_fract]
    ring
  have hiat : (intOf t₀ : ℚ) ≤ t := by
    rw [intOf_of_nonneg hnonneg]
    exact (Int.floor_le t₀).trans ht
  rw [accepted_iff hjwt, rejected_iff hjwt, hexp]
  exact ⟨fun hlt => ⟨hiat, hlt⟩, fun hle haccepted => absurd haccepted.2 (not_lt.mpr hle)⟩

/-- Tokens that are not encrypted. -/
def plainJwt : Jwt AccessClaims where
  encode claims := claims
  decode issuer now claims :=
    if claims.iss ≠ issuer ∨ claims.exp ≤ now ∨ now < claims.iat then none else some claims

theorem plainJwt_checks : plainJwt.Checks := by
  intro claims now
  simp [plainJwt]

theorem access_token_lifetime_plain : LivesAsAdvertised plainJwt plainEnvironment 1000 ∧
    decodeAccessTokenAt plainJwt plainEnvironment 1899
      (createAccessTokenAt plainJwt plainEnvironment "2" "j" 1000) =
      some (accessClaims plainEnvironment "2" "j" 1000) := by
  have hlifetime := @access_token_lifetime _ plainJwt plainEnvironment 1000 plainJwt_checks
    (by decide)
  have hwhole : ∃ n : ℤ, (1000 : ℚ) = n := ⟨1000, by norm_num⟩
  refine ⟨hlifetime.2.2.1.mpr hwhole, (hlifetime.2.1 (by norm_num) "2" "j" 1899 (by norm_num)).1 ?_⟩
  norm_num [accessTokenTtlSeconds, plainEnvironment]

/-- Half a second after a full second, with a lifetime of 900 seconds: after 899.75 seconds
the token is rejected. -/
theorem access_token_short : ¬ LivesAsAdvertised plainJwt plainEnvironment (2001 / 2) := by
  intro h
  have hadvertised : (2001 / 2 + 899 + 3 / 4 : ℚ) < 2001 / 2 + accessTokenTtlSeconds
      plainEnvironment := by
    norm_num [accessTokenTtlSeconds, plainEnvironment]
  have haccepted := (h "2" "j" (2001 / 2 + 899 + 3 / 4)).1 (by norm_num) hadvertised
  have hwindow := (accepted_iff plainJwt_checks).mp haccepted
  norm_num [intOf, accessTokenTtlSeconds, plainEnvironment] at hwindow

end SecureIam
