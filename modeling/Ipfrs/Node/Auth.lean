import Mathlib.Data.Finset.Insert
import Ipfrs.Lib.AssocMap

/-!
# Users and tokens

The `AuthManager` of the node (`ipfrs/src/auth.rs`): users, the lookup from names to users, and the
tokens that are given out to users.

Renaming a user leaves the lookup as it is, and verifying a token does not look at the users: a
token is accepted until it expires or is revoked, whatever becomes of its user. So the lookup and
the users agree, and the accepted tokens have enabled users, as long as no operation renames a user,
and none deletes or disables a user who still has tokens, or gives a token to a disabled one
(`consistent_of_run`).

A time is a number of nanoseconds since the epoch, and so is a span of time. The identifiers that
the operations draw are arguments here. A `HashMap` has no order of its own: the tokens are a list
in the order of iteration, which may change between any two operations. The configurations of OAuth2
providers are left out, and so are the checks of permissions.
-/

namespace Ipfrs.Auth

/-! ### The data -/

inductive Role where
  | admin
  | user
  | readOnly
  | service
  deriving DecidableEq, Repr

inductive Permission where
  | blockRead
  | blockWrite
  | blockDelete
  | dagRead
  | dagWrite
  | semanticRead
  | semanticWrite
  | logicRead
  | logicWrite
  | networkRead
  | networkWrite
  | adminManage
  deriving DecidableEq, Repr

inductive TokenType where
  | apiKey
  | jwt
  deriving DecidableEq, Repr

structure AuthToken where
  id : String
  userId : String
  tokenType : TokenType
  secret : String
  expiresAt : Option ℤ
  roles : Finset Role
  permissions : Option (Finset Permission)
  metadata : AList fun _ : String => String

def AuthToken.isExpired (token : AuthToken) (now : ℤ) : Bool :=
  match token.expiresAt with
  | some exp => now > exp
  | none => false

structure User where
  id : String
  username : String
  email : Option String
  passwordHash : Option String
  roles : Finset Role
  permissions : Option (Finset Permission)
  enabled : Bool
  createdAt : ℤ
  lastLogin : Option ℤ

def User.new (id username : String) (now : ℤ) : User where
  id := id
  username := username
  email := none
  passwordHash := none
  roles := ∅
  permissions := none
  enabled := true
  createdAt := now
  lastLogin := none

structure AuthManager where
  tokens : AList fun _ : String => AuthToken
  users : AList fun _ : String => User
  usernameLookup : AList fun _ : String => String
  jwtSecret : String
  defaultTokenExpiration : ℤ

/-- What the code uses of the crates `md5` and `chrono`. -/
class AuthCrates where
  /-- The MD5 of a string, in hexadecimal. -/
  md5 : String → String
  /-- `to_rfc3339`. -/
  toRfc3339 : ℤ → String
  /-- The first and the last time that a `DateTime` can hold. -/
  minUtc : ℤ
  maxUtc : ℤ

/-- The sum of a time and a span of time, which must be a `DateTime`. -/
def addDuration [AuthCrates] (t duration : ℤ) : Except String ℤ :=
  if AuthCrates.minUtc ≤ t + duration ∧ t + duration ≤ AuthCrates.maxUtc then .ok (t + duration)
  else .error "`DateTime + TimeDelta` overflowed"

namespace AuthManager

/-! ### The operations -/

def new (jwtSecret : String) : AuthManager where
  tokens := ∅
  users := ∅
  usernameLookup := ∅
  jwtSecret := jwtSecret
  defaultTokenExpiration := 24 * 3600 * 10 ^ 9

variable (m : AuthManager)

def withTokenExpiration (duration : ℤ) : AuthManager :=
  { m with defaultTokenExpiration := duration }

def createUser (now : ℤ) (userId username : String) (email : Option String) (roles : Finset Role) :
    Except String (User × AuthManager) :=
  if username ∈ m.usernameLookup then .error "Username already exists"
  else
    let user := { User.new userId username now with email := email, roles := roles }
    .ok (user, { m with
      users := m.users.insert userId user
      usernameLookup := m.usernameLookup.insert username userId })

def getUser (userId : String) : Option User := m.users.lookup userId

def updateUser (user : User) : AuthManager :=
  { m with users := m.users.insert user.id user }

def deleteUser (userId : String) : AuthManager :=
  match m.users.lookup userId with
  | some user => { m with
      users := m.users.erase userId
      usernameLookup := m.usernameLookup.erase user.username }
  | none => m

/-- `create_api_key`. `key` is the identifier that the secret is made of. -/
def createApiKey [AuthCrates] (m : AuthManager) (now : ℤ) (tokenId key userId : String)
    (name : Option String) : Except String (AuthToken × AuthManager) :=
  match m.getUser userId with
  | none => .error "User not found"
  | some user =>
    let named : AList fun _ : String => String :=
      match name with
      | some n => (∅ : AList fun _ : String => String).insert "name" n
      | none => ∅
    let token : AuthToken :=
      { id := tokenId
        userId := userId
        tokenType := .apiKey
        secret := "ipfrs_" ++ String.ofList (key.toList.filter (· ≠ '-'))
        expiresAt := none
        roles := user.roles
        permissions := user.permissions
        metadata := named.insert "created_at" (AuthCrates.toRfc3339 now) }
    .ok (token, { m with tokens := m.tokens.insert tokenId token })

/-- `encode_jwt`, without the roles, which it does not use. -/
def encodeJwt [AuthCrates] (m : AuthManager) (tokenId userId : String) (expiresAt : ℤ) : String :=
  let payload := tokenId ++ ":" ++ userId ++ ":" ++ toString (expiresAt / 10 ^ 9)
  payload ++ "." ++ AuthCrates.md5 (payload ++ m.jwtSecret)

/-- `create_jwt_token`. The sum of times panics where it fails here. -/
def createJwtToken [AuthCrates] (m : AuthManager) (now : ℤ) (tokenId userId : String)
    (duration : Option ℤ) : Except String (AuthToken × AuthManager) :=
  match m.getUser userId with
  | none => .error "User not found"
  | some user =>
    match addDuration now (duration.getD m.defaultTokenExpiration) with
    | .error msg => .error msg
    | .ok expiresAt =>
      let token : AuthToken :=
        { id := tokenId
          userId := userId
          tokenType := .jwt
          secret := m.encodeJwt tokenId userId expiresAt
          expiresAt := some expiresAt
          roles := user.roles
          permissions := user.permissions
          metadata := ∅ }
      .ok (token, { m with tokens := m.tokens.insert tokenId token })

/-- A token that was found, unless it has expired. -/
def unlessExpired (now : ℤ) (token : AuthToken) : Except String AuthToken :=
  if token.isExpired now then .error "Token expired" else .ok token

def decodeJwt [AuthCrates] (m : AuthManager) (now : ℤ) (jwt : String) : Except String AuthToken :=
  match jwt.toList.splitOn '.' with
  | [payload, signature] =>
    if String.ofList signature ≠ AuthCrates.md5 (String.ofList payload ++ m.jwtSecret) then
      .error "Invalid JWT signature"
    else
      match payload.splitOn ':' with
      | [tokenId, _, _] =>
        match m.tokens.lookup (String.ofList tokenId) with
        | some token => unlessExpired now token
        | none => .error "Token not found"
      | _ => .error "Invalid JWT payload"
  | _ => .error "Invalid JWT format"

def verifyToken [AuthCrates] (m : AuthManager) (now : ℤ) (secret : String) :
    Except String AuthToken :=
  if "ipfrs_".toList.isPrefixOf secret.toList then
    match (m.tokens.entries.map Sigma.snd).find? fun token => token.secret = secret with
    | some token => unlessExpired now token
    | none => .error "Invalid API key"
  else m.decodeJwt now secret

def revokeToken (tokenId : String) : AuthManager :=
  { m with tokens := m.tokens.erase tokenId }

/-! ### The invariant -/

/-- A name leads to the user who has it. -/
def NamesAgree : Prop :=
  ∀ name id, m.usernameLookup.lookup name = some id ↔
    ∃ user, m.users.lookup id = some user ∧ user.username = name

/-- There is a user of that identifier, who is enabled. -/
def IsActive (userId : String) : Prop :=
  ∃ user, m.users.lookup userId = some user ∧ user.enabled = true

/-- **Consistency.** The names and the users agree, and a token that is accepted has a user, who is
enabled. -/
structure Consistent [AuthCrates] (now : ℤ) (m : AuthManager) : Prop where
  names : m.NamesAgree
  accepted : ∀ secret token, m.verifyToken now secret = .ok token → m.IsActive token.userId

/-- The same of every token that has not expired, whether or not its secret leads to it. -/
structure Inv (now : ℤ) (m : AuthManager) : Prop where
  names : m.NamesAgree
  tokens : ∀ tokenId token, m.tokens.lookup tokenId = some token →
    token.isExpired now = true ∨ m.IsActive token.userId

variable {m : AuthManager} {now : ℤ}
variable {token : AuthToken} {now' : ℤ} {tokenId userId : String} {user : User} {m' : AuthManager}

theorem unlessExpired_eq_ok_iff {token' : AuthToken} :
    unlessExpired now token = .ok token' ↔ token.isExpired now = false ∧ token = token' := by
  unfold unlessExpired
  cases token.isExpired now <;> simp

/-- **An accepted token** is one of the tokens, and has not expired. -/
theorem of_verifyToken_eq_ok [AuthCrates] {secret : String}
    (h : m.verifyToken now secret = .ok token) :
    (∃ tokenId, m.tokens.lookup tokenId = some token) ∧ token.isExpired now = false := by
  unfold verifyToken at h
  split at h
  · -- an API key is found among the values
    split at h
    next found hfind =>
      obtain ⟨hexp, rfl⟩ := unlessExpired_eq_ok_iff.mp h
      obtain ⟨⟨tokenId, _⟩, hentry, rfl⟩ := List.mem_map.mp (List.mem_of_find?_eq_some hfind)
      exact ⟨⟨tokenId, AList.mem_lookup_iff.mpr hentry⟩, hexp⟩
    next => exact absurd h (by simp)
  · unfold decodeJwt at h
    split at h
    next payload signature _ =>
      split at h
      · exact absurd h (by simp)
      · split at h
        next tokenId _ _ _ =>
          split at h
          next found hfound =>
            obtain ⟨hexp, rfl⟩ := unlessExpired_eq_ok_iff.mp h
            exact ⟨⟨_, hfound⟩, hexp⟩
          next => exact absurd h (by simp)
        next => exact absurd h (by simp)
    next => exact absurd h (by simp)

/-- **The invariant gives consistency.** -/
theorem Inv.consistent [AuthCrates] (h : Inv now m) : Consistent now m where
  names := h.names
  accepted secret token hok := by
    obtain ⟨⟨tokenId, hlookup⟩, hexp⟩ := of_verifyToken_eq_ok hok
    refine (h.tokens tokenId token hlookup).resolve_left ?_
    rw [hexp]
    exact Bool.false_ne_true

theorem isExpired_mono (hle : now ≤ now') (h : token.isExpired now = true) :
    token.isExpired now' = true := by
  unfold AuthToken.isExpired at h ⊢
  split at h
  next exp hexp =>
    simp only [decide_eq_true_eq] at h ⊢
    exact lt_of_lt_of_le h hle
  next => exact absurd h Bool.false_ne_true

/-! ### What the operations do to it -/

theorem Inv.new (jwtSecret : String) (duration : ℤ) :
    Inv now ((AuthManager.new jwtSecret).withTokenExpiration duration) where
  names name id := by
    constructor
    · intro h
      exact absurd h (by simp [AuthManager.new, withTokenExpiration])
    · rintro ⟨user, h, -⟩
      exact absurd h (by simp [AuthManager.new, withTokenExpiration])
  tokens tokenId token h := absurd h (by simp [AuthManager.new, withTokenExpiration])

theorem Inv.tick (h : Inv now m) (hle : now ≤ now') : Inv now' m where
  names := h.names
  tokens tokenId token hlookup := (h.tokens tokenId token hlookup).imp_left (isExpired_mono hle)

theorem Inv.reorder {tokens : AList fun _ : String => AuthToken} (h : Inv now m)
    (hperm : m.tokens.entries.Perm tokens.entries) : Inv now { m with tokens := tokens } where
  names := h.names
  tokens tokenId token hlookup := h.tokens tokenId token ((AList.perm_lookup hperm).trans hlookup)

theorem Inv.revokeToken (h : Inv now m) (tokenId : String) : Inv now (m.revokeToken tokenId) where
  names := h.names
  tokens tokenId' token hlookup :=
    h.tokens tokenId' token (AssocMap.lookup_of_lookup_erase hlookup)

/-- **A token may be given** to an enabled user, or when it has expired. -/
theorem Inv.insert_token_iff (h : Inv now m) :
    Inv now { m with tokens := m.tokens.insert tokenId token } ↔
      token.isExpired now = true ∨ m.IsActive token.userId := by
  constructor
  · intro h'
    exact h'.tokens tokenId token (AList.lookup_insert m.tokens)
  · intro hnew
    refine ⟨h.names, fun tokenId' token' hlookup => ?_⟩
    rcases AssocMap.lookup_insert_eq_some.mp hlookup with ⟨-, rfl⟩ | ⟨-, hold⟩
    · exact hnew
    · exact h.tokens tokenId' token' hold

theorem Inv.createUser (h : Inv now m) {username : String} {email : Option String}
    {roles : Finset Role} (hfresh : userId ∉ m.users)
    (hok : m.createUser now userId username email roles = .ok (user, m')) : Inv now m' := by
  unfold AuthManager.createUser at hok
  split at hok
  · exact absurd hok (by simp)
  next hname =>
    obtain ⟨-, rfl⟩ := Prod.mk.inj (Except.ok.inj hok)
    -- no user has the identifier yet
    have hne {id : String} {user' : User} (hid : m.users.lookup id = some user') : id ≠ userId := by
      rintro rfl
      exact hfresh (AssocMap.mem_of_lookup hid)
    constructor
    · intro name id
      rw [AssocMap.lookup_insert_eq_some]
      constructor
      · rintro (⟨rfl, rfl⟩ | ⟨-, hold⟩)
        · exact ⟨_, AList.lookup_insert m.users, rfl⟩
        · obtain ⟨user', hid, hname'⟩ := (h.names name id).mp hold
          exact ⟨user', (AList.lookup_insert_ne (hne hid)).trans hid, hname'⟩
      · rintro ⟨user', hlookup, rfl⟩
        rcases AssocMap.lookup_insert_eq_some.mp hlookup with ⟨rfl, rfl⟩ | ⟨-, hold⟩
        · exact Or.inl ⟨rfl, rfl⟩
        · have hid := (h.names user'.username id).mpr ⟨user', hold, rfl⟩
          refine Or.inr ⟨?_, hid⟩
          rintro rfl
          exact hname (AssocMap.mem_of_lookup hid)
    · intro tokenId token hlookup
      refine (h.tokens tokenId token hlookup).imp_right ?_
      rintro ⟨user', hid, henabled⟩
      exact ⟨user', (AList.lookup_insert_ne (hne hid)).trans hid, henabled⟩

/-- Every token of the user has expired. -/
def TokensExpired (now : ℤ) (m : AuthManager) (userId : String) : Prop :=
  ∀ tokenId token, m.tokens.lookup tokenId = some token → token.userId = userId →
    token.isExpired now = true

/-- What other users there are matters to no token that is not theirs. -/
theorem isActive_congr {id : String} (h : m'.users.lookup id = m.users.lookup id) :
    m'.IsActive id ↔ m.IsActive id := by
  unfold IsActive
  rw [h]

/-- **A user may be updated** who keeps the name, and is enabled or has no tokens left. -/
theorem Inv.updateUser_iff (h : Inv now m) (hmem : user.id ∈ m.users) :
    Inv now (m.updateUser user) ↔
      (∀ old, m.users.lookup user.id = some old → user.username = old.username) ∧
      (user.enabled = true ∨ TokensExpired now m user.id) := by
  have hself : (m.updateUser user).users.lookup user.id = some user :=
    AList.lookup_insert m.users
  have hother {id : String} (hne : id ≠ user.id) :
      (m.updateUser user).users.lookup id = m.users.lookup id := AList.lookup_insert_ne hne
  constructor
  · intro h'
    constructor
    · -- the old name still leads to the user, who must have it
      intro old hold
      obtain ⟨user', hlookup, hname⟩ :=
        (h'.names old.username user.id).mp ((h.names _ _).mpr ⟨old, hold, rfl⟩)
      obtain rfl := Option.some.inj (hself.symm.trans hlookup)
      exact hname
    · -- a token of a disabled user must have expired
      refine or_iff_not_imp_left.mpr fun hdisabled tokenId token hlookup hid => ?_
      refine (h'.tokens tokenId token hlookup).resolve_right ?_
      rintro ⟨user', huser', henabled⟩
      rw [hid] at huser'
      obtain rfl := Option.some.inj (hself.symm.trans huser')
      exact hdisabled henabled
  · rintro ⟨hname, hallowed⟩
    obtain ⟨old, hold⟩ := Option.isSome_iff_exists.mp (AList.lookup_isSome.mpr hmem)
    constructor
    · -- the index of names is not touched, so the names must be the old ones
      intro name id
      refine (h.names name id).trans ?_
      by_cases hid : id = user.id
      · subst hid
        rw [hself, hold]
        constructor
        · rintro ⟨_, hlookup, rfl⟩
          obtain rfl := Option.some.inj hlookup
          exact ⟨user, rfl, hname old hold⟩
        · rintro ⟨_, hlookup, rfl⟩
          obtain rfl := Option.some.inj hlookup
          exact ⟨old, rfl, (hname old hold).symm⟩
      · rw [hother hid]
    · intro tokenId token hlookup
      by_cases hid : token.userId = user.id
      · rcases hallowed with henabled | hexpired
        · refine Or.inr ⟨user, ?_, henabled⟩
          rw [hid]
          exact hself
        · exact Or.inl (hexpired tokenId token hlookup hid)
      · exact (h.tokens tokenId token hlookup).imp_right (isActive_congr (hother hid)).mpr

/-- **A user may be deleted** who has no tokens left. -/
theorem Inv.deleteUser_iff (h : Inv now m) :
    Inv now (m.deleteUser userId) ↔ TokensExpired now m userId := by
  unfold AuthManager.deleteUser
  cases huser : m.users.lookup userId with
  | none =>
    -- nobody is deleted, and nobody's tokens have all expired
    refine iff_of_true h fun tokenId token hlookup hid => ?_
    refine (h.tokens tokenId token hlookup).resolve_right ?_
    rintro ⟨user, hactive, -⟩
    rw [hid, huser] at hactive
    cases hactive
  | some user =>
    dsimp only
    constructor
    · intro h' tokenId token hlookup hid
      refine (h'.tokens tokenId token hlookup).resolve_right ?_
      rintro ⟨user', hactive, -⟩
      rw [hid, AList.lookup_erase] at hactive
      cases hactive
    · intro hexpired
      constructor
      · intro name id
        constructor
        · intro hname
          have hold := AssocMap.lookup_of_lookup_erase hname
          obtain ⟨user', hid, rfl⟩ := (h.names name id).mp hold
          refine ⟨user', ?_, rfl⟩
          rw [AList.lookup_erase_ne, hid]
          -- the name would be the one that was removed
          rintro rfl
          obtain rfl := Option.some.inj (huser.symm.trans hid)
          rw [AList.lookup_erase] at hname
          cases hname
        · rintro ⟨user', hid, rfl⟩
          have hold := AssocMap.lookup_of_lookup_erase hid
          have hname := (h.names _ _).mpr ⟨user', hold, rfl⟩
          rw [AList.lookup_erase_ne, hname]
          -- somebody else does not have the name that was removed
          intro hsame
          have hdeleted := (h.names _ _).mpr ⟨user, huser, hsame.symm⟩
          obtain rfl := Option.some.inj (hname.symm.trans hdeleted)
          rw [AList.lookup_erase] at hid
          cases hid
      · intro tokenId token hlookup
        by_cases hid : token.userId = userId
        · exact Or.inl (hexpired tokenId token hlookup hid)
        · refine (h.tokens tokenId token hlookup).imp_right (isActive_congr ?_).mpr
          exact AList.lookup_erase_ne hid

/-- The manager after a call. A call that fails leaves it as it is. -/
def after {α : Type} (m : AuthManager) : Except String (α × AuthManager) → AuthManager
  | .ok (_, m') => m'
  | .error _ => m

theorem Inv.createApiKey_iff [AuthCrates] (h : Inv now m) {key : String} {name : Option String} :
    Inv now (m.after (m.createApiKey now tokenId key userId name)) ↔
      ∀ user, m.users.lookup userId = some user → user.enabled = true := by
  unfold AuthManager.createApiKey getUser
  cases huser : m.users.lookup userId with
  | none => exact iff_of_true h fun user huser' => absurd huser' (by simp)
  | some user =>
    refine h.insert_token_iff.trans ?_
    constructor
    · rintro (hexp | ⟨user', hlookup, henabled⟩)
      · exact absurd hexp Bool.false_ne_true
      · rintro _ ⟨⟩
        obtain rfl := Option.some.inj (huser.symm.trans hlookup)
        exact henabled
    · intro henabled
      exact Or.inr ⟨user, huser, henabled user rfl⟩

theorem Inv.createJwtToken_iff [AuthCrates] (h : Inv now m) {duration : Option ℤ} :
    Inv now (m.after (m.createJwtToken now tokenId userId duration)) ↔
      ∀ user expiresAt, m.users.lookup userId = some user →
        addDuration now (duration.getD m.defaultTokenExpiration) = .ok expiresAt →
        user.enabled = true ∨ expiresAt < now := by
  unfold AuthManager.createJwtToken getUser
  cases huser : m.users.lookup userId with
  | none => exact iff_of_true h fun user _ huser' => absurd huser' (by simp)
  | some user =>
    dsimp only
    cases hexpires : addDuration now (duration.getD m.defaultTokenExpiration) with
    | error msg =>
      -- there is no such time, and no token is made
      exact iff_of_true h fun _ _ _ hok => absurd hok (by simp)
    | ok expiresAt =>
      refine h.insert_token_iff.trans ?_
      constructor
      · rintro (hexp | ⟨user', hlookup, henabled⟩) _ _ ⟨⟩ ⟨⟩
        · exact Or.inr (of_decide_eq_true hexp)
        · obtain rfl := Option.some.inj (huser.symm.trans hlookup)
          exact Or.inl henabled
      · intro hallowed
        rcases hallowed user expiresAt rfl rfl with henabled | hexp
        · exact Or.inr ⟨user, huser, henabled⟩
        · exact Or.inl (decide_eq_true hexp)

/-! ### Runs -/

/-- The operations, with the identifiers that they draw. -/
inductive Op where
  | createUser (userId username : String) (email : Option String) (roles : Finset Role)
  | updateUser (user : User)
  | deleteUser (userId : String)
  | createApiKey (tokenId key userId : String) (name : Option String)
  | createJwtToken (tokenId userId : String) (duration : Option ℤ)
  | revokeToken (tokenId : String)

/-- What an operation makes of a manager. -/
def perform [AuthCrates] (m : AuthManager) (now : ℤ) : Op → AuthManager
  | .createUser userId username email roles =>
    m.after (m.createUser now userId username email roles)
  | .updateUser user => m.updateUser user
  | .deleteUser userId => m.deleteUser userId
  | .createApiKey tokenId key userId name => m.after (m.createApiKey now tokenId key userId name)
  | .createJwtToken tokenId userId duration =>
    m.after (m.createJwtToken now tokenId userId duration)
  | .revokeToken tokenId => m.revokeToken tokenId

/-- What is asked of an operation: a new user has an identifier of their own, and only a user who is
there is updated. -/
def Op.Allowed (m : AuthManager) : Op → Prop
  | .createUser userId _ _ _ => userId ∉ m.users
  | .updateUser user => user.id ∈ m.users
  | _ => True

/-- **The operations that keep a manager consistent**: they rename no user, they neither delete nor
disable a user who has tokens that have not expired, and they give no such token to a disabled
user. -/
def Op.Harmless [AuthCrates] (now : ℤ) (m : AuthManager) : Op → Prop
  | .createUser _ _ _ _ => True
  | .updateUser user =>
    (∀ old, m.users.lookup user.id = some old → user.username = old.username) ∧
      (user.enabled = true ∨ TokensExpired now m user.id)
  | .deleteUser userId => TokensExpired now m userId
  | .createApiKey _ _ userId _ => ∀ user, m.users.lookup userId = some user → user.enabled = true
  | .createJwtToken _ userId duration => ∀ user expiresAt, m.users.lookup userId = some user →
    addDuration now (duration.getD m.defaultTokenExpiration) = .ok expiresAt →
    user.enabled = true ∨ expiresAt < now
  | .revokeToken _ => True

/-- The managers that operations make of an empty one, and the time then. `ok` says which operations
are performed. Time passes between the operations, and the tokens may change their order. -/
inductive Run [AuthCrates] (ok : ℤ → AuthManager → Op → Prop) : ℤ → AuthManager → Prop
  | new (jwtSecret : String) (duration now : ℤ) :
      Run ok now ((AuthManager.new jwtSecret).withTokenExpiration duration)
  | tick {now now' : ℤ} {m : AuthManager} (hrun : Run ok now m) (hle : now ≤ now') : Run ok now' m
  | reorder {now : ℤ} {m : AuthManager} {tokens : AList fun _ : String => AuthToken}
      (hrun : Run ok now m) (hperm : m.tokens.entries.Perm tokens.entries) :
      Run ok now { m with tokens := tokens }
  | step {now : ℤ} {m : AuthManager} {op : Op} (hrun : Run ok now m) (hallowed : op.Allowed m)
      (hok : ok now m op) : Run ok now (m.perform now op)

section Runs

variable [AuthCrates]

theorem Run.mono {ok ok' : ℤ → AuthManager → Op → Prop}
    (himp : ∀ now m op, ok now m op → ok' now m op) (hrun : Run ok now m) : Run ok' now m := by
  induction hrun with
  | new jwtSecret duration now => exact .new jwtSecret duration now
  | tick hrun hle ih => exact ih.tick hle
  | reorder hrun hperm ih => exact ih.reorder hperm
  | step hrun hallowed hok ih => exact ih.step hallowed (himp _ _ _ hok)

/-- **One step** keeps the invariant exactly when it is harmless. -/
theorem Inv.perform_iff (h : Inv now m) {op : Op} (hallowed : op.Allowed m) :
    Inv now (m.perform now op) ↔ op.Harmless now m := by
  cases op with
  | createUser userId username email roles =>
    refine iff_of_true ?_ trivial
    show Inv now (m.after (m.createUser now userId username email roles))
    cases hok : m.createUser now userId username email roles with
    | error msg => exact h
    | ok created => exact h.createUser hallowed hok
  | updateUser user => exact h.updateUser_iff hallowed
  | deleteUser userId => exact h.deleteUser_iff
  | createApiKey tokenId key userId name => exact h.createApiKey_iff
  | createJwtToken tokenId userId duration => exact h.createJwtToken_iff
  | revokeToken tokenId => exact iff_of_true (h.revokeToken tokenId) trivial

/-- **A run of harmless operations** keeps the invariant. -/
theorem Inv.of_run (hrun : Run (fun now m op => op.Harmless now m) now m) : Inv now m := by
  induction hrun with
  | new jwtSecret duration now => exact Inv.new jwtSecret duration
  | tick hrun hle ih => exact ih.tick hle
  | reorder hrun hperm ih => exact ih.reorder hperm
  | step hrun hallowed hok ih => exact (ih.perform_iff hallowed).mpr hok

/-- **The users, their names and their tokens** are consistent in every state that harmless
operations lead to. -/
theorem consistent_of_run (hrun : Run (fun now m op => op.Harmless now m) now m) :
    Consistent now m :=
  (Inv.of_run hrun).consistent

end Runs

/-! ### A user with an API key -/

/-- The crates at the epoch, with the digest of the empty string. -/
@[reducible] def epochCrates : AuthCrates where
  md5 _ := "d41d8cd98f00b204e9800998ecf8427e"
  toRfc3339 _ := "1970-01-01T00:00:00+00:00"
  minUtc := -8334601228800 * 10 ^ 9
  maxUtc := 8210266876799 * 10 ^ 9 + 999999999

/-- A manager with one user. -/
def alice : AuthManager :=
  @perform epochCrates ((new "secret").withTokenExpiration 0) 0
    (.createUser "u1" "alice" none {.user})

/-- The user gets an API key. -/
def aliceWithKey : AuthManager :=
  @perform epochCrates alice 0 (.createApiKey "t1" "k-1" "u1" none)

theorem run_aliceWithKey :
    @Run epochCrates (fun now m op => @Op.Harmless epochCrates now m op) 0 aliceWithKey := by
  let _ := epochCrates
  refine Run.step (m := alice) (.step (.new "secret" 0 0) (AList.notMem_empty "u1") trivial)
    trivial ?_
  intro user huser
  have henabled : (alice.users.lookup "u1").map User.enabled = some true := by decide
  rw [huser] at henabled
  exact Option.some.inj henabled

theorem consistent_aliceWithKey : @Consistent epochCrates 0 aliceWithKey :=
  @consistent_of_run _ _ epochCrates run_aliceWithKey

/-- **A rename leaves the old name behind, and a key outlives its user.** Once `alice` is renamed,
the old name still leads to the user; when she is deleted instead, her key is still accepted. -/
theorem not_forall_consistent :
    (¬ ∀ [AuthCrates] now m, Run (fun _ _ _ => True) now m → m.NamesAgree) ∧
      ¬ ∀ [AuthCrates] now m, Run (fun _ _ _ => True) now m →
        ∀ secret token, m.verifyToken now secret = .ok token → m.IsActive token.userId := by
  let _ := epochCrates
  have hrun : Run (fun _ _ _ => True) 0 aliceWithKey :=
    run_aliceWithKey.mono fun _ _ _ _ => trivial
  constructor
  · -- the old name still leads to the user, who has another
    intro hall
    have hmem : "u1" ∈ aliceWithKey.users := by decide
    have hupdate : Op.Allowed aliceWithKey (.updateUser (User.new "u1" "bob" 0)) := hmem
    have hnames := hall 0 (aliceWithKey.updateUser (User.new "u1" "bob" 0))
      (hrun.step hupdate trivial)
    obtain ⟨user, huser, hname⟩ := (hnames "alice" "u1").mp (by decide)
    obtain rfl := Option.some.inj huser
    exact absurd hname (by decide)
  · -- the key of the deleted user opens
    intro hall
    have hdelete : Op.Allowed aliceWithKey (.deleteUser "u1") := trivial
    have haccepted := hall 0 (aliceWithKey.deleteUser "u1") (hrun.step hdelete trivial) "ipfrs_k1"
    obtain ⟨user, huser, -⟩ := haccepted _ rfl
    have hgone : (aliceWithKey.deleteUser "u1").users.lookup "u1" = none := rfl
    rw [hgone] at huser
    cases huser

end AuthManager

end Ipfrs.Auth
