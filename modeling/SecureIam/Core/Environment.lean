import SecureIam.Domain.Models
import Mathlib.Data.String.Basic

/-!
What the application takes from outside: clock readings, random draws, hash
functions, the JWT library, the collation of the database and its choice of row
order. A reading is indexed by the step of the run that makes it.
-/
namespace SecureIam

structure Settings where
  jwtIssuer : String
  accessTokenTtlMinutes : Int
  refreshTokenTtlDays : Int

/-- The claims of an access token. -/
structure AccessClaims where
  sub : String
  type : String
  iat : Int
  exp : Int
  jti : String
  iss : String
deriving DecidableEq, Repr

structure Environment where
  settings : Settings
  clock : Nat → Time
  uuid : Nat → Uuid
  uuid_injective : ∀ m n, uuid m = uuid n → m = n
  token : Nat → String
  sha256 : String → String
  lower : String → String
  hashPassword : Nat → String → String
  verifyPassword : String → String → Bool
  jwtEncode : AccessClaims → String
  jwtDecode : (issuer : String) → (now : Time) → String → Option AccessClaims
  parseUuid : String → Option Uuid
  collate : String → String → Bool
  collate_total : ∀ a b, collate a b || collate b a
  collate_trans : ∀ a b c, collate a b → collate b c → collate a c
  collate_antisymm : ∀ a b, collate a b → collate b a → a = b
  scan : {α : Type} → Nat → List α → List α
  scan_perm : ∀ {α : Type} (n : Nat) (rows : List α), (scan n rows).Perm rows

/-- No two refresh tokens ever generated have the same hash. -/
def Environment.Distinct (env : Environment) : Prop :=
  ∀ m n, env.sha256 (env.token m) = env.sha256 (env.token n) → m = n

/-- One second and one fresh id, token and so on a step; nothing is encrypted. -/
def plainEnvironment : Environment where
  settings := ⟨"secureiam", 15, 7⟩
  clock n := n * Time.second
  uuid n := ⟨2 * n⟩
  uuid_injective m n h := by
    have hval : 2 * m = 2 * n := congrArg Uuid.val h
    omega
  token n := String.ofList (List.replicate n 'a')
  sha256 token := token
  lower email := email
  hashPassword _ password := password
  verifyPassword password hash := password = hash
  jwtEncode claims := claims.sub
  jwtDecode issuer now sub :=
    some ⟨sub, "access", now / Time.second, now / Time.second, "", issuer⟩
  parseUuid text := text.toNat?.map Uuid.mk
  collate a b := a ≤ b
  collate_total a b := by simpa using le_total a b
  collate_trans a b c hab hbc := by simp only [decide_eq_true_eq] at *; exact le_trans hab hbc
  collate_antisymm a b hab hba := by simp only [decide_eq_true_eq] at *; exact le_antisymm hab hba
  scan _ rows := rows
  scan_perm _ rows := .refl rows

theorem plainEnvironment_distinct : plainEnvironment.Distinct := by
  intro m n h
  simpa [plainEnvironment] using congrArg String.length h

end SecureIam
