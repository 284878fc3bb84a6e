import SecureIam.Repositories.Basic

/-!
`app/repositories/user_repository.py`. Emails are stored and looked up in lower case.
-/
namespace SecureIam.UserRepository
open Lib App
variable (env : Environment)

def draft (email passwordHash : String) : Table.Draft .users where
  row id now := ⟨id, email, passwordHash, true, now, none⟩
  drawn u now id h := by simpa [Table.keys] using h

/-- The column `email` is a `String(255)`. -/
def emailFits (email : String) : Bool := storable email && email.length ≤ 255

def createUser (email passwordHash : String) : App User := do
  let user ← exceptIntegrityError
    (do
      requireData (emailFits (env.lower email))
      let user ← insert .users (draft (env.lower email) passwordHash)
      commit
      return user)
    (.duplicateEmail s!"Email already registered: {env.lower email}")
  refresh .users user.id

def getByEmail (email : String) : App (Option User) := do
  requireData (storable (env.lower email))
  scalarOneOrNone (← select .users fun t => t.users.filter (·.email = env.lower email))

def getById (userId : Uuid) : App (Option User) := do
  scalarOneOrNone (← select .users fun t => t.users.filter (·.id = userId))

def updateLastLogin (user : User) : App User := do
  let now ← utcNow
  flushOne (← issue (.updateLastLoginAt user.id now))
  commit
  refresh .users user.id

section Data
variable {env} {email : String}

theorem createUser_of_fits (h : emailFits (env.lower email) = true) (passwordHash : String) :
    createUser env email passwordHash = (do
      let user ← exceptIntegrityError
        (do
          let user ← insert .users (draft (env.lower email) passwordHash)
          commit
          return user)
        (.duplicateEmail s!"Email already registered: {env.lower email}")
      refresh .users user.id) := by
  simp only [createUser, requireData, if_pos h, Program.pure_def, Program.bind_def,
    Program.ret_bind]

theorem createUser_of_not_fits (h : emailFits (env.lower email) = false) (passwordHash : String) :
    createUser env email passwordHash = .raise .dataError := by
  simp only [createUser, requireData, h]
  rfl

theorem getByEmail_of_storable (h : storable (env.lower email) = true) :
    getByEmail env email = (do
      scalarOneOrNone (← select .users fun t => t.users.filter (·.email = env.lower email))) := by
  simp only [getByEmail, requireData, if_pos h, Program.pure_def, Program.bind_def,
    Program.ret_bind]

theorem getByEmail_of_not_storable (h : storable (env.lower email) = false) :
    getByEmail env email = .raise .dataError := by
  simp only [getByEmail, requireData, h]
  rfl

end Data

end SecureIam.UserRepository
