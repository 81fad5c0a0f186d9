import Mathlib.Data.List.AList
import Mathlib.Tactic

/-!
# The accounts and sessions of `loginhandler.cpp`

`login` acts on global tables, gathered in `State`. A hash map is an association list without
repeated keys; the order in which it is iterated is not part of it but is given anew for each
request, along with the other things a request does not determine (`Environment`). A pointer to an
entry of the account table is its key: the program never removes an entry.

Left out are the texts for the log and the console.
-/

set_option autoImplicit false
set_option relaxedAutoImplicit false

namespace WsServer.Login

abbrev Uuid := BitVec 128

/-- `other` stands for the values of the underlying type that have no name. -/
inductive LogCmd
  | login
  | create
  | logout
  | del
  | other
  deriving DecidableEq

inductive LogResult
  | success
  | failure
  | pending
  deriving DecidableEq

structure LoginCredentials where
  username : String
  password : String
  deriving DecidableEq

structure LoginRequest where
  cmd : LogCmd
  logCredentials : LoginCredentials
  uuid : Uuid
  status : LogResult := .pending
  deriving DecidableEq

structure Account where
  loginCred : LoginCredentials
  uuid : Uuid
  sessionToken : String := ""
  active : Bool := true
  deriving DecidableEq

@[ext]
structure Session where
  sessiontoken : String
  account : Option Uuid
  deriving DecidableEq

/-- A user name in lower case; `std::tolower` changes the letters of ASCII only. -/
def lower (name : String) : List Char := name.toList.map Char.toLower

/-- `operator==`. -/
def LoginCredentials.equal (lhs rhs : LoginCredentials) : Bool :=
  lower lhs.username = lower rhs.username ∧ lhs.password = rhs.password

/-- `emplace`, which keeps an entry that is there already. -/
def emplace {K V : Type} [DecidableEq K] (t : AList fun _ : K ↦ V) (k : K) (v : V) :
    AList fun _ : K ↦ V :=
  if k ∈ t then t else t.insert k v

/-! ### New accounts -/

/-- `is_new`. -/
def isNew (range : List Uuid) (testTarget : Uuid) : Bool := (range.find? (· = testTarget)).isNone

/-- `generate_uuid` with the values that the generator returns; none when the loop goes on after the
last of them. -/
def generateUuid (idTable : List Uuid) : List Uuid → Option Uuid
  | [] => none
  | id :: generated => if isNew idTable id then some id else generateUuid idTable generated

/-- `createAccount`: the account and the table with its uuid. -/
def createAccount (logInput : LoginCredentials) (uuidTable generated : List Uuid) :
    Option (Account × List Uuid) := do
  let newUuid ← generateUuid uuidTable generated
  let acc : Account :=
    { loginCred := logInput, uuid := newUuid, sessionToken := "", active := true }
  some (acc, uuidTable ++ [acc.uuid])

/-! ### The tables -/

structure State where
  session : Session
  activeSession : List String
  uuidTable : List Uuid
  accountTable : AList fun _ : Uuid ↦ Account
  nameToUUID : AList fun _ : String ↦ Uuid
  tombstonedAccountsTable : AList fun _ : Uuid ↦ Account

/-- The tables at the start; the first two uuids are drawn without a check. -/
def initial (g₁ g₂ : Uuid) : State :=
  let admin : Account := { loginCred := { username := "Admin", password := "PASSWD" }, uuid := g₁ }
  { session := { sessiontoken := "", account := none }
    activeSession := []
    uuidTable := [g₁, g₂]
    accountTable := AList.singleton g₁ admin
    nameToUUID := AList.singleton "Admin" g₁
    tombstonedAccountsTable := AList.singleton g₁ admin }

/-- What a request meets: the order in which the account table is iterated, the values that the
uuid generator returns, the token made for the request, and what is read at the prompt, nothing at
the end of the input. -/
structure Environment where
  order : List Uuid
  generated : List Uuid
  token : String
  reply : Option Char

/-- `std::ranges::find_if` over the account table for given credentials. -/
def State.findIf (s : State) (order : List Uuid) (cred : LoginCredentials) :
    Option (Uuid × Account) :=
  (order.filterMap fun u ↦ (s.accountTable.lookup u).map fun acc ↦ (u, acc)).find?
    fun pair ↦ pair.2.loginCred.equal cred

/-! ### The requests -/

/-- `login`, which changes the tables and the request; none when no new uuid is found. -/
def login (s : State) (env : Environment) (logReq : LoginRequest) : Option (State × LoginRequest) :=
  match logReq.cmd with
  | .login =>
    match s.findIf env.order logReq.logCredentials with
    | some (p, it) =>
      let logReq := { logReq with uuid := it.uuid }
      let generatedToken := env.token
      some ({ s with
          accountTable := s.accountTable.insert p { it with sessionToken := generatedToken }
          session := { sessiontoken := generatedToken, account := some p }
          activeSession := s.activeSession ++ [generatedToken] },
        { logReq with status := .success })
    | none => some (s, { logReq with status := .failure })
  | .create =>
    match s.findIf env.order logReq.logCredentials with
    | none => do
      let (newAccount, uuidTable) ← createAccount logReq.logCredentials s.uuidTable env.generated
      some ({ s with
          uuidTable := uuidTable
          accountTable := emplace s.accountTable newAccount.uuid newAccount
          nameToUUID := s.nameToUUID.insert newAccount.loginCred.username newAccount.uuid },
        { logReq with uuid := newAccount.uuid, status := .success })
    | some _ => some (s, { logReq with status := .failure })
  | .logout =>
    match s.session.account with
    | none => some (s, { logReq with status := .success })
    | some p => do
      let acc ← s.accountTable.lookup p
      if acc.uuid = logReq.uuid then
        some ({ s with
            activeSession := s.activeSession.filter (· ≠ s.session.sessiontoken)
            session := { sessiontoken := "", account := none } },
          { logReq with status := .success })
      else
        some (s, { logReq with status := .success })
  | .del =>
    match s.accountTable.lookup logReq.uuid with
    | none => some (s, { logReq with status := .failure })
    | some it =>
      if it.loginCred.username ≠ logReq.logCredentials.username then
        some (s, { logReq with status := .failure })
      else
        let promptReply := env.reply.getD 'N'
        if promptReply = 'y' ∨ promptReply = 'Y' then
          some ({ s with
              tombstonedAccountsTable := emplace s.tombstonedAccountsTable logReq.uuid it
              accountTable := s.accountTable.insert logReq.uuid { it with
                loginCred := { it.loginCred with password := "TOMBSTONE" }, active := false }
              nameToUUID := s.nameToUUID.erase it.loginCred.username },
            { logReq with status := .success })
        else
          some (s, { logReq with status := .failure })
  | .other => some (s, logReq)

end WsServer.Login
