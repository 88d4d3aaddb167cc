import Opticon.Api.Edits
import Opticon.Api.Login
import Opticon.Api.Privileged
import Opticon.Crypto.PwcryptLaws
import Opticon.Var.ChildLaws
import Opticon.Var.Texts

/-! The accounts that the user database holds, over any history of changes to it. -/

namespace Opticon

variable {ihash : BitVec 32} {n : Nat}

/-! ## The accounts of a user database -/

/-- A record that can be stored: a dict of texts. -/
structure UserRecord (ihash : BitVec 32) (r : Var) : Prop where
  clean : r.Clean ihash 7
  node : r.isNode true = true
  texts : ∀ c ∈ r.children, (varGetStr c).isSome

/-- The records of all users. -/
structure UserDict (ihash h : BitVec 32) (cs : List Var) : Prop where
  clean : (Var.dict FString.empty h cs).Clean ihash (default_max_json_depth + 1)
  records : ∀ r ∈ cs, UserRecord ihash r

/-- A user database as it is read from its file. -/
inductive UserFile (ihash : BitVec 32) : Var → Prop
  | empty (h : BitVec 32) : UserFile ihash (.leaf FString.empty h .null)
  | users {h : BitVec 32} {cs : List Var} : UserDict ihash h cs → cs ≠ [] →
      UserFile ihash (.dict FString.empty h cs)

/-- The texts in a record, by their keys. -/
abbrev Fields := List UInt8 → Option (List UInt8)

def recordFields (ihash : BitVec 32) (r : Var) : Fields := varGetStrForkey ihash r

def account (ihash : BitVec 32) (pwdb : Var) (user : List UInt8) : Option Fields :=
  (varChild ihash pwdb user).map (recordFields ihash)

@[simp] theorem varGetStr_shown (v : Var) : varGetStr v.shown = varGetStr v := by
  cases v with
  | leaf id h val => cases val <;> rfl
  | dict _ _ _ => rfl
  | array _ _ _ => rfl

@[simp] theorem Var.isNode_shown (v : Var) (dict : Bool) : v.shown.isNode dict = v.isNode dict := by
  cases v <;> rfl

theorem Var.children_shown (v : Var) : v.shown.children = v.children.map Var.shown := by
  cases v with
  | leaf _ _ _ => rfl
  | dict _ _ cs => exact Var.shownAll_eq_map cs
  | array _ _ cs => exact Var.shownAll_eq_map cs

theorem Var.children_of_shown {v w : Var} (h : w.shown = v.shown) :
    w.children.map Var.shown = v.children.map Var.shown := by
  rw [← Var.children_shown, ← Var.children_shown, h]

theorem exists_of_shown {v w c' : Var} (h : w.shown = v.shown) (hc' : c' ∈ w.children) :
    ∃ c ∈ v.children, c'.shown = c.shown := by
  have hmem := List.mem_map_of_mem (f := Var.shown) hc'
  rw [Var.children_of_shown h] at hmem
  obtain ⟨c, hc, heq⟩ := List.mem_map.mp hmem
  exact ⟨c, hc, heq.symm⟩

theorem exists_text {c : Var} (h : (varGetStr c).isSome) : ∃ id hash s, c = .leaf id hash (.str s) := by
  cases c with
  | leaf id hash val =>
    cases val with
    | str s => exact ⟨id, hash, s, rfl⟩
    | null => cases h
    | int _ => cases h
    | double _ => cases h
  | dict _ _ _ => cases h
  | array _ _ _ => cases h

theorem isNode_true {r : Var} (h : r.isNode true = true) : ∃ id hash cs, r = .dict id hash cs := by
  cases r with
  | leaf _ _ _ => cases h
  | dict id hash cs => exact ⟨id, hash, cs, rfl⟩
  | array _ _ _ => cases h

/-- The texts of a clean record are seen in what looks the same. -/
theorem recordFields_shown {r r' : Var} (hr : r.Clean ihash (n + 1)) (hr' : r'.Clean ihash (n + 1))
    (hnode : r.isNode true = true) (h : r'.shown = r.shown) :
    recordFields ihash r' = recordFields ihash r := by
  funext key
  have hnode' : r'.isNode true = true := by rw [← Var.isNode_shown, h, Var.isNode_shown, hnode]
  obtain ⟨id, hash, cs, rfl⟩ := isNode_true hnode
  obtain ⟨id', hash', cs', rfl⟩ := isNode_true hnode'
  have hat := Var.at_shown rfl rfl h key
  rw [recordFields, recordFields, varGetStrForkey, varGetStrForkey, hr.varChild_at, hr'.varChild_at]
  have htext (o : Option Var) : o.bind varGetStr = (o.map Var.shown).bind varGetStr := by
    cases o with
    | none => rfl
    | some c => exact (varGetStr_shown c).symm
  rw [htext, hat, ← htext]

namespace UserDict

variable {h : BitVec 32} {cs : List Var}

theorem mem_of_varChild (hd : UserDict ihash h cs) {u : List UInt8} {r : Var}
    (hr : varChild ihash (.dict FString.empty h cs) u = some r) : r ∈ cs := by
  rw [hd.clean.varChild_at] at hr
  exact List.mem_of_find?_eq_some hr

/-- A database that was written is read as it was. -/
theorem reread (hd : UserDict ihash h cs) :
    ∃ w, varLoadJson ihash (some (varDump (.dict FString.empty h cs)).2) = .ok (some w) ∧
      UserFile ihash w ∧ account ihash w = account ihash (.dict FString.empty h cs) := by
  by_cases hne : cs = []
  · subst hne
    exact ⟨.leaf FString.empty 0 .null, rfl, .empty 0, rfl⟩
  have hdoc : (Var.dict FString.empty h cs).Document ihash := ⟨hd.clean, ⟨h, cs, rfl⟩, hne⟩
  obtain ⟨-, w, hload, hwdoc, hshown⟩ := hdoc.reread
  obtain ⟨h', cs', rfl⟩ := hwdoc.dict
  have hrecords : ∀ r' ∈ cs', UserRecord ihash r' := by
    intro r' hr'
    obtain ⟨r, hr, heq⟩ := exists_of_shown hshown hr'
    have hrec := hd.records r hr
    refine ⟨?_, by rw [← Var.isNode_shown, heq, Var.isNode_shown, hrec.node], fun c' hc' => ?_⟩
    · cases hwdoc.clean with
      | dict _ _ hcs => exact hcs r' hr'
    · obtain ⟨c, hc, heq'⟩ := exists_of_shown heq hc'
      rw [← varGetStr_shown, heq', varGetStr_shown]
      exact hrec.texts c hc
  have hd' : UserDict ihash h' cs' := ⟨hwdoc.clean, hrecords⟩
  refine ⟨_, hload, .users hd' hwdoc.nonempty, funext fun u => ?_⟩
  have hat := Var.at_shown rfl rfl hshown u
  rw [← hd.clean.varChild_at, ← hd'.clean.varChild_at] at hat
  rw [account, account]
  cases hr : varChild ihash (.dict FString.empty h cs) u with
  | none =>
    rw [hr] at hat
    rw [Option.map_eq_none_iff.mp hat]
  | some r =>
    rw [hr] at hat
    obtain ⟨r', hr', heq⟩ := Option.map_eq_some_iff.mp hat
    have hrec := hd.records r (hd.mem_of_varChild hr)
    have hrec' := hd'.records r' (hd'.mem_of_varChild hr')
    rw [hr', Option.map_some, Option.map_some, recordFields_shown hrec.clean hrec'.clean hrec.node heq]

/-- The records with another one of a user, or without it. -/
theorem updated {w : Var} {user : List UInt8} (hd : UserDict ihash h cs)
    (hup : Var.Updated ihash default_max_json_depth user (.dict FString.empty h cs) w)
    (hown : ∀ r, varChild ihash w user = some r → UserRecord ihash r) :
    (∃ bs, w = .dict FString.empty h bs ∧ UserDict ihash h bs) ∧
      account ihash w = Function.update (account ihash (.dict FString.empty h cs)) user
        ((varChild ihash w user).map (recordFields ihash)) := by
  obtain ⟨bs, rfl⟩ := hup.dict
  have hother (u : List UInt8) (hu : u ≠ user) : varChild ihash (.dict FString.empty h bs) u =
      varChild ihash (.dict FString.empty h cs) u :=
    (hup.clean.varChild_at u).trans ((hup.other u hu).trans (hd.clean.varChild_at u).symm)
  refine ⟨⟨bs, rfl, hup.clean, fun r hr => ?_⟩, funext fun u => ?_⟩
  · have hself := hup.clean.varChild_self hr
    by_cases hu : r.id.str = user
    · exact hown r (hu ▸ hself)
    · exact hd.records r (hd.mem_of_varChild ((hother _ hu).symm.trans hself))
  · by_cases hu : u = user
    · rw [hu, Function.update_self]
      rfl
    · rw [Function.update_of_ne hu]
      exact congrArg (Option.map _) (hother u hu)

end UserDict

/-- An empty database is used like an empty dict. -/
theorem UserFile.asDict {pwdb : Var} (h : UserFile ihash pwdb) : ∃ hash cs, UserDict ihash hash cs ∧
    account ihash pwdb = account ihash (.dict FString.empty hash cs) ∧
    ∀ E : UserEnv, E.ihash = ihash → ∀ user, userRecord E pwdb user =
      userRecord E (.dict FString.empty hash cs) user := by
  cases h with
  | empty hash =>
    exact ⟨hash, [], ⟨.dict (by simp) (by simp) (by simp), by simp⟩, rfl, fun _ _ _ => rfl⟩
  | @users hash cs hd _ => exact ⟨hash, cs, hd, rfl, fun _ _ _ => rfl⟩

/-! ## The record of a user -/

/-- A text for a field. -/
structure FieldText (s : List UInt8) : Prop where
  nul : 0 ∉ s
  length : s.length ≤ 128

/-- A field of a record is set. -/
theorem UserRecord.set {r : Var} (h : UserRecord ihash r) {key s : List UInt8} (hkey : KeyText key)
    (hs : FieldText s) : UserRecord ihash (varSetForkey ihash r key (.str s)) ∧
      recordFields ihash (varSetForkey ihash r key (.str s)) =
        Function.update (recordFields ihash r) key (some s) := by
  obtain ⟨id, hash, cs, rfl⟩ := isNode_true h.node
  obtain ⟨fkey, rfl, hfkey⟩ := hkey.key
  have hval : (VarValue.str s).Formed := hs.nul
  obtain ⟨hup, -⟩ := varSetForkey_updated h.clean hfkey hval (length_valueText_str hs.length)
  obtain ⟨bs, hbs⟩ := hup.dict
  have hstr : (FString.strncpy fkey.str).str = fkey.str := by rw [FString.strncpy_str]
  have hown := @varSetForkey_own ihash fkey.str id hash cs (.str s) hstr hfkey.ne
  have hset : ∃ id' hash',
      varChild ihash (varSetForkey ihash (.dict id hash cs) fkey.str (.str s)) fkey.str =
        some (.leaf id' hash' (.str s)) := by
    rw [hown]
    cases hold : varChild ihash (.dict id hash cs) fkey.str with
    | none => exact ⟨_, _, rfl⟩
    | some c =>
      rw [h.clean.varChild_at] at hold
      -- a text takes the place of a text
      obtain ⟨cid, chash, old, rfl⟩ := exists_text (h.texts c (List.mem_of_find?_eq_some hold))
      exact ⟨cid, chash, rfl⟩
  obtain ⟨id', hash', hset⟩ := hset
  have hother (k : List UInt8) (hk : k ≠ fkey.str) := @varSetForkey_other ihash fkey.str k
    (.dict id hash cs) (.str s) (by rw [hstr]; exact hk.symm)
  have hfields : recordFields ihash (varSetForkey ihash (.dict id hash cs) fkey.str (.str s)) =
      Function.update (recordFields ihash (.dict id hash cs)) fkey.str (some s) := by
    funext k
    by_cases hk : k = fkey.str
    · rw [hk, Function.update_self, recordFields, varGetStrForkey, hset]
      rfl
    · rw [Function.update_of_ne hk]
      exact varGetStrForkey_of_rel (hother k hk)
  refine ⟨⟨hup.clean, by rw [hbs]; rfl, fun c hc => ?_⟩, hfields⟩
  have hclean := hup.clean
  rw [hbs] at hclean hc
  have hself := hclean.varChild_self hc
  by_cases hk : c.id.str = fkey.str
  · rw [← hbs, hk, hset] at hself
    obtain rfl := Option.some.inj hself
    rfl
  · rw [hclean.varChild_at, ← hbs, hup.other _ hk] at hself
    exact h.texts c (List.mem_of_find?_eq_some hself)

theorem keyText_fields : KeyText (asc "tenant") ∧ KeyText (asc "passwd") ∧ KeyText (asc "level") := by
  decide +kernel

def Fields.put (f : Fields) (key : List UInt8) : Option (List UInt8) → Fields
  | some s => Function.update f key (some s)
  | none => f

/-- The texts of a record after a request. -/
def sentFields (E : UserEnv) (tenantid : Uuid) (level plainpw : Option (List UInt8)) (f : Fields) :
    Fields :=
  ((f.put (asc "tenant") (if uuidvalid tenantid then some (uuid2str tenantid) else none)).put (asc "passwd")
    (plainpw.map E.pwcrypt)).put (asc "level") level

/-- A record in the place of another one. -/
structure Replaced (ihash : BitVec 32) (r : Var) (f : Fields) (r' : Var) : Prop where
  record : UserRecord ihash r'
  root : r'.id = r.id ∧ r'.hashcode = r.hashcode
  fields : recordFields ihash r' = f

theorem Replaced.put {r r' : Var} {f : Fields} (h : Replaced ihash r f r') {key s : List UInt8}
    (hkey : KeyText key) (hs : FieldText s) :
    Replaced ihash r (f.put key (some s)) (varSetForkey ihash r' key (.str s)) := by
  have hroot := @varSetForkey_root ihash r' key (.str s)
  obtain ⟨hrec, hfields⟩ := h.record.set hkey hs
  exact ⟨hrec, ⟨hroot.1.trans h.root.1, hroot.2.trans h.root.2⟩, by rw [hfields, h.fields]; rfl⟩

theorem setUserFields_replaced {E : UserEnv} {r : Var} (h : UserRecord E.ihash r) (tenantid : Uuid)
    {level plainpw : Option (List UInt8)} (hlevel : ∀ s, level = some s → FieldText s)
    (hpw : ∀ s, plainpw = some s → FieldText (E.pwcrypt s)) :
    Replaced E.ihash r (sentFields E tenantid level plainpw (recordFields E.ihash r))
      (setUserFields E r tenantid level plainpw) := by
  obtain ⟨htenant, hpasswd, hlvl⟩ := keyText_fields
  have hsame : Replaced E.ihash r (recordFields E.ihash r) r := ⟨h, ⟨rfl, rfl⟩, rfl⟩
  have hfirst : Replaced E.ihash r (sentFields E tenantid none none (recordFields E.ihash r))
      (setUserFields E r tenantid none none) := by
    by_cases hid : uuidvalid tenantid
    · simp only [setUserFields, sentFields, Option.map_none, if_pos hid]
      exact hsame.put htenant ⟨nul_uuid2str _, by rw [length_uuid2str]; decide⟩
    · simp only [setUserFields, sentFields, Option.map_none, if_neg hid]
      exact hsame
  have hsecond : Replaced E.ihash r (sentFields E tenantid none plainpw (recordFields E.ihash r))
      (setUserFields E r tenantid none plainpw) := by
    cases plainpw with
    | none => exact hfirst
    | some pw => exact hfirst.put hpasswd (hpw pw rfl)
  cases level with
  | none => exact hsecond
  | some level => exact hsecond.put hlvl (hlevel level rfl)

/-- The hashes are those of `pwcrypt`, with a salt that was drawn. -/
structure UserEnv.Salted (E : UserEnv) (salt : List UInt8) : Prop where
  drawn : ∃ r r', salt = userSalt r r'
  pwcrypt : ∀ pw : List UInt8, pw.length < 2 ^ 31 → ∃ ctx ctx1 : Md5Context, ctx.buffer.length = 64 ∧
    ctx1.buffer.length = 64 ∧ md5Pwcrypt ctx ctx1 pw salt = .ok (E.pwcrypt pw)

/-- What a request sends can be stored in the record of a user. -/
structure Storable (E : UserEnv) (bodyjson : Var) : Prop where
  formed : bodyjson.Formed
  level : ∀ s, varGetStrForkey E.ihash bodyjson (asc "level") = some s → s.length ≤ 128
  password : ∀ s, varGetStrForkey E.ihash bodyjson (asc "password") = some s → s.length < 2 ^ 31

theorem userSalt_eq (r r' : BitVec 32) : ∃ a b : UInt8, userSalt r r' = [36, 49, 36, a, b, 36] ∧
    a ≠ 36 ∧ b ≠ 36 ∧ a ≠ 0 ∧ b ≠ 0 := by
  have hdrawn (r : BitVec 32) : UInt8.ofNat ((r &&& 0x3f).toNat + 0x30) ≠ 36 ∧
      UInt8.ofNat ((r &&& 0x3f).toNat + 0x30) ≠ 0 := by
    have hcodes : ∀ x < 64, UInt8.ofNat (x + 0x30) ≠ 36 ∧ UInt8.ofNat (x + 0x30) ≠ 0 := by decide +kernel
    have hmask : (0x3f : BitVec 32).toNat = 2 ^ 6 - 1 := rfl
    rw [BitVec.toNat_and, hmask, Nat.and_two_pow_sub_one_eq_mod]
    exact hcodes _ (Nat.mod_lt _ (by decide))
  exact ⟨_, _, rfl, (hdrawn r).1, (hdrawn r').1, (hdrawn r).2, (hdrawn r').2⟩

theorem saltLength_userSalt (r r' : BitVec 32) : saltLength (userSalt r r') = 5 := by
  obtain ⟨a, b, heq, ha, hb, -, -⟩ := userSalt_eq r r'
  rw [heq, saltLength]
  simp [ha, hb]

namespace UserEnv.Salted

variable {E : UserEnv} {salt pw : List UInt8}

theorem length (h : E.Salted salt) : 3 ≤ salt.length := by
  obtain ⟨r, r', rfl⟩ := h.drawn
  obtain ⟨a, b, heq, -⟩ := userSalt_eq r r'
  rw [heq, List.length_cons]
  exact Nat.le_add_left 3 3

theorem pwcrypt_eq (h : E.Salted salt) (hpw : pw.length < 2 ^ 31) : E.pwcrypt pw = storedHash pw salt := by
  obtain ⟨ctx, ctx1, hctx, hctx1, hok⟩ := h.pwcrypt pw hpw
  exact (Except.ok.inj ((md5Pwcrypt_eq hctx hctx1 hpw h.length).symm.trans hok)).symm

theorem fieldText (h : E.Salted salt) (hpw : pw.length < 2 ^ 31) : FieldText (E.pwcrypt pw) := by
  rw [h.pwcrypt_eq hpw, storedHash]
  obtain ⟨r, r', rfl⟩ := h.drawn
  rw [saltLength_userSalt]
  obtain ⟨a, b, heq, -, -, ha, hb⟩ := userSalt_eq r r'
  rw [heq]
  refine ⟨?_, ?_⟩
  · simp [nul_digestText, ha.symm, hb.symm]
  · simp [length_digestText]

end UserEnv.Salted

/-! ## The commands -/

/-- The record that is edited is in the database, or a new one. -/
theorem userRecord_eq {E : UserEnv} {hash : BitVec 32} {cs : List Var} (hd : UserDict E.ihash hash cs)
    {user : UrlText} (huser : KeyText user) :
    ∃ r, userRecord E (.dict FString.empty hash cs) user = .ok r ∧ UserRecord E.ihash r.2.2 ∧
      recordFields E.ihash r.2.2 =
        (account E.ihash (.dict FString.empty hash cs) user).getD (fun _ => none) ∧
      ∀ w, UserRecord E.ihash w → w.id = r.2.2.id → w.hashcode = r.2.2.hashcode →
        ∃ bs, r.1.put r.2.1 w = .dict FString.empty hash bs ∧ UserDict E.ihash hash bs ∧
          account E.ihash (.dict FString.empty hash bs) = Function.update
            (account E.ihash (.dict FString.empty hash cs)) user (some (recordFields E.ihash w)) := by
  obtain ⟨key, rfl, hkey⟩ := huser.key
  have hid := fun i h => Var.id_node true i h []
  have hhash := fun i h => Var.hashcode_node true i h []
  have hsnd := @varForkey_snd E.ihash key.str (.dict FString.empty hash cs) _ hhash
  have hstr : (FString.strncpy key.str).str = key.str := by rw [FString.strncpy_str]
  refine ⟨varForkey E.ihash (.dict FString.empty hash cs) key.str fun id h => Var.node true id h [],
    ?_, ?_, ?_, ?_⟩
  · obtain ⟨i, c, -, -, hr⟩ | ⟨-, hr⟩ := varFindKey_clean hd.clean key.str
    · simp only [userRecord, varForkey, hr]
    · rw [varChild, hr] at hsnd
      have hnode : (varForkey E.ihash (.dict FString.empty hash cs) key.str
          fun id h => Var.node true id h []).2.2.isNode true = true := by
        rw [hsnd]
        rfl
      simp only [userRecord, hr, varGetDictForkey, varGetNodeForkey, if_pos hnode]
  · rw [hsnd]
    cases hr : varChild E.ihash (.dict FString.empty hash cs) key.str with
    | some r => exact hd.records r (hd.mem_of_varChild hr)
    | none => exact ⟨.dict (by simp) (by simp) (by simp), rfl, by simp [Var.node, Var.children]⟩
  · rw [hsnd, account]
    cases varChild E.ihash (.dict FString.empty hash cs) key.str with
    | some r => rfl
    | none => rfl
  · intro w hw hwid hwh
    obtain ⟨hup, -⟩ := hd.clean.put_forkey hkey hid hhash hw.clean hwid hwh
    have hown := @varForkey_put_own E.ihash key.str _ w FString.empty hash cs hid hhash hstr hkey.ne hwid
      hwh
    obtain ⟨⟨bs, hbs, hd'⟩, hacc⟩ := hd.updated hup fun r hr => by
      obtain rfl := Option.some.inj (hown.symm.trans hr)
      exact hw
    rw [hown] at hacc
    exact ⟨bs, hbs, hd', hbs ▸ hacc⟩

/-- The account that a request asks for, by what it was. -/
def askedFields (E : UserEnv) (bodyjson : Var) (old : Option Fields) : Fields :=
  sentFields E (mkuuid ((varGetStrForkey E.ihash bodyjson (asc "tenant")).getD []))
    (varGetStrForkey E.ihash bodyjson (asc "level")) (varGetStrForkey E.ihash bodyjson (asc "password"))
    (old.getD fun _ => none)

abbrev Accounts := List UInt8 → Option Fields

/-- The database holds these accounts. -/
def HoldsAccounts (ihash : BitVec 32) (A : Accounts) (userdb : UserDb) : Prop :=
  ∃ pwdb, varLoadJson ihash userdb = .ok (some pwdb) ∧ UserFile ihash pwdb ∧ account ihash pwdb = A

section Commands

variable {E : UserEnv} {ctx : ReqContext} {user : UrlText} {rest : List UrlText} {userdb : UserDb}
  {salt : List UInt8} {A : Accounts}

/-- What an answer leaves of the accounts. -/
def Leaves (ihash : BitVec 32) (A A' : Accounts) (x : Except Fault (Reply × UserDb)) : Prop :=
  ∃ reply userdb', x = .ok (reply, userdb') ∧
    HoldsAccounts ihash (if reply = ⟨200, none⟩ then A' else A) userdb'

theorem Leaves.refused {A' : Accounts} (h : HoldsAccounts ihash A userdb) {reply : Reply}
    (hne : reply ≠ ⟨200, none⟩) :
    Leaves ihash A A' (.ok (reply, userdb)) :=
  ⟨reply, userdb, rfl, by rwa [if_neg hne]⟩

/-- A dict of records is written as the new database. -/
theorem Leaves.written {hash : BitVec 32} {cs : List Var} (hd : UserDict ihash hash cs) :
    Leaves ihash A (account ihash (.dict FString.empty hash cs))
      (.ok (⟨200, none⟩, some (varDump (.dict FString.empty hash cs)).2)) := by
  obtain ⟨w, hw, hfile, hacc⟩ := hd.reread
  exact ⟨_, _, rfl, by rw [if_pos rfl]; exact ⟨w, hw, hfile, hacc⟩⟩

theorem cmdUserSet_leaves (h : HoldsAccounts E.ihash A userdb) (hE : E.Salted salt) (huser : KeyText user)
    (hbody : Storable E ctx.bodyjson) : Leaves E.ihash A
      (Function.update A user (some (askedFields E ctx.bodyjson (A user))))
      (cmdUserSet E ctx (user :: rest) userdb) := by
  have hrefused := @Leaves.refused E.ihash userdb A
    (Function.update A user (some (askedFields E ctx.bodyjson (A user)))) h
  obtain ⟨pwdb, hload, hfile, rfl⟩ := h
  obtain ⟨hash, cs, hd, hacc, hrecord⟩ := hfile.asDict
  obtain ⟨r, hr, hrec, hold, hput⟩ := userRecord_eq hd huser
  rw [← hrecord E rfl] at hr
  have hlevel (s : List UInt8) (hs : varGetStrForkey E.ihash ctx.bodyjson (asc "level") = some s) :
      FieldText s := ⟨varGetStrForkey_nonul hbody.formed hs, hbody.level s hs⟩
  have hpw (s : List UInt8) (hs : varGetStrForkey E.ihash ctx.bodyjson (asc "password") = some s) :
      FieldText (E.pwcrypt s) := hE.fieldText (hbody.password s hs)
  have hset := setUserFields_replaced hrec
    (mkuuid ((varGetStrForkey E.ihash ctx.bodyjson (asc "tenant")).getD [])) hlevel hpw
  obtain ⟨bs, hbs, hd', hacc'⟩ := hput _ hset.record hset.root.1 hset.root.2
  rw [hset.fields, hold, ← hacc] at hacc'
  simp only [cmdUserSet, hload, hr, Outcome.ok_bind]
  split
  · exact hrefused (by decide)
  split
  · exact hrefused (by decide)
  split
  · exact hrefused (by decide)
  split
  · exact hrefused (by decide)
  split
  · exact hrefused (by decide)
  · rw [hbs]
    have hwritten := @Leaves.written E.ihash (account E.ihash pwdb) hash bs hd'
    rwa [hacc'] at hwritten

/-- What is left when a user goes. -/
theorem varDeleteKey_records {hash : BitVec 32} {cs : List Var} (hd : UserDict ihash hash cs)
    (user : List UInt8) :
    ∃ bs, varDeleteKey ihash (.dict FString.empty hash cs) user = .dict FString.empty hash bs ∧
      UserDict ihash hash bs ∧ account ihash (.dict FString.empty hash bs) =
        Function.update (account ihash (.dict FString.empty hash cs)) user none := by
  have hup := varDeleteKey_updated hd.clean user
  have hgone : varChild ihash (varDeleteKey ihash (.dict FString.empty hash cs) user) user = none := by
    obtain ⟨i, c, hget, hck, hr⟩ | ⟨-, hr⟩ := varFindKey_clean hd.clean user
    · have heq : varDeleteKey ihash (.dict FString.empty hash cs) user =
          .dict FString.empty hash (cs.eraseIdx i) := by simp only [varDeleteKey, hr]
      have hclean := hup.clean
      rw [heq] at hclean ⊢
      rw [hclean.varChild_at]
      refine List.find?_eq_none.mpr fun c' hc' => ?_
      obtain ⟨j, hj, hne, rfl⟩ := List.mem_eraseIdx_iff_getElem.mp hc'
      obtain ⟨hi, rfl⟩ := List.getElem?_eq_some_iff.mp hget
      -- another record has another key
      have hnodup : (cs.map Var.id).Nodup := by
        cases hd.clean with
        | dict hnd _ _ => exact hnd
      intro hid
      have hj' : j < (cs.map Var.id).length := by rwa [List.length_map]
      have hi' : i < (cs.map Var.id).length := by rwa [List.length_map]
      refine hne ((@List.Nodup.getElem_inj_iff _ _ hnodup j hj' i hi').mp ?_)
      rw [List.getElem_map, List.getElem_map]
      exact FString.ext ((of_decide_eq_true hid).trans hck.symm)
    · have heq : varDeleteKey ihash (.dict FString.empty hash cs) user = .dict FString.empty hash cs := by
        simp only [varDeleteKey, hr]
      rw [heq, varChild, hr]
      rfl
  obtain ⟨⟨bs, hbs, hd'⟩, hacc⟩ := hd.updated hup fun r hr => by
    rw [hgone] at hr
    cases hr
  rw [hgone] at hacc
  exact ⟨bs, hbs, hd', hbs ▸ hacc⟩

theorem cmdUserDelete_leaves (h : HoldsAccounts E.ihash A userdb) :
    Leaves E.ihash A (Function.update A user none) (cmdUserDelete E ctx (user :: rest) userdb) := by
  have hrefused := @Leaves.refused E.ihash userdb A (Function.update A user none) h
  obtain ⟨pwdb, hload, hfile, rfl⟩ := h
  simp only [cmdUserDelete, hload, Outcome.ok_bind]
  split
  · exact hrefused (by decide)
  split
  · exact hrefused (by decide)
  split
  · exact hrefused (by decide)
  cases hfile with
  | empty hash =>
    have hnone : Function.update (account E.ihash (.leaf FString.empty hash .null)) user none =
        account E.ihash (.leaf FString.empty hash .null) := Function.update_eq_self_iff.mpr rfl
    rw [hnone]
    exact ⟨_, _, rfl, by rw [ite_self]; exact ⟨.leaf FString.empty 0 .null, rfl, .empty 0, rfl⟩⟩
  | @users hash cs hd hne =>
    obtain ⟨bs, hbs, hd', hacc⟩ := varDeleteKey_records hd user
    rw [hbs]
    have hwritten := @Leaves.written E.ihash (account E.ihash (.dict FString.empty hash cs)) hash bs hd'
    rwa [hacc] at hwritten

end Commands

/-! ## Histories of changes -/

/-- A request that writes the user database. -/
structure UserRequest where
  E : UserEnv
  ctx : ReqContext
  arg : List UrlText
  delete : Bool

def UserRequest.answer (q : UserRequest) (userdb : UserDb) : Except Fault (Reply × UserDb) :=
  if q.delete then cmdUserDelete q.E q.ctx q.arg userdb else cmdUserSet q.E q.ctx q.arg userdb

/-- A request with a name and with fields that can be stored. -/
structure UserRequest.Proper (ihash : BitVec 32) (q : UserRequest) : Prop where
  hash : q.E.ihash = ihash
  salted : ∃ salt, q.E.Salted salt
  name : ∀ user, q.arg.head? = some user → KeyText user
  body : Storable q.E q.ctx.bodyjson

/-- The accounts after a request and its answer. -/
def accountsAfter (A : Accounts) (l : UserRequest × Reply) : Accounts :=
  if l.2 = ⟨200, none⟩ then
    match l.1.arg with
    | [] => A
    | user :: _ => Function.update A user
      (if l.1.delete then none else some (askedFields l.1.E l.1.ctx.bodyjson (A user)))
  else A

/-- Requests and their answers, from a user database on. -/
def userRequests (userdb₀ : UserDb) : Transition UserDb (UserRequest × Reply) where
  init := (· = userdb₀)
  step userdb l userdb' := l.1.answer userdb = .ok (l.2, userdb')

variable {userdb userdb₀ : UserDb} {A : Accounts} {ls : List (UserRequest × Reply)}

/-- A request is answered, and does to the database what it does to the accounts. -/
theorem UserRequest.Proper.answer {q : UserRequest} (hq : q.Proper ihash)
    (h : HoldsAccounts ihash A userdb) :
    ∃ reply userdb', q.answer userdb = .ok (reply, userdb') ∧
      HoldsAccounts ihash (accountsAfter A (q, reply)) userdb' := by
  obtain ⟨E, ctx, arg, delete⟩ := q
  obtain ⟨rfl, ⟨salt, hsalt⟩, hname, hbody⟩ := hq
  cases arg with
  | nil =>
    have hsame (reply : Reply) :
        HoldsAccounts E.ihash (accountsAfter A (⟨E, ctx, [], delete⟩, reply)) userdb := by
      simp only [accountsAfter, ite_self]
      exact h
    simp only [UserRequest.answer, cmdUserDelete, cmdUserSet]
    split_ifs
    all_goals exact ⟨_, _, rfl, hsame _⟩
  | cons user rest =>
    cases delete with
    | true => exact @cmdUserDelete_leaves E ctx user rest userdb A h
    | false => exact @cmdUserSet_leaves E ctx user rest userdb salt A h hsalt (hname user rfl) hbody

/-- The database holds the accounts that the answered requests lead to. -/
theorem holds_history (h₀ : HoldsAccounts ihash A userdb₀)
    (h : ((userRequests userdb₀).guard fun _ l => l.1.Proper ihash).History ls userdb) :
    HoldsAccounts ihash (ls.foldl accountsAfter A) userdb := by
  apply h.induction (I := fun ls userdb => HoldsAccounts ihash (ls.foldl accountsAfter A) userdb)
  · rintro _ rfl
    exact h₀
  · rintro ls userdb ⟨q, reply⟩ userdb' ih ⟨hq, hstep⟩
    obtain ⟨reply', userdb'', hanswer, hholds⟩ := hq.answer ih
    obtain ⟨rfl, rfl⟩ := Prod.mk.inj (Except.ok.inj (hanswer.symm.trans hstep))
    rwa [List.foldl_append]

/-- A complete `PUT` of an administrator is done. -/
theorem cmdUserSet_done {E : UserEnv} {user : UrlText} (h : HoldsAccounts E.ihash A userdb)
    (huser : KeyText user) {ctx : ReqContext} {rest : List UrlText}
    (hint : E.internal = true) (hwritable : E.writable = true) (hadmin : ctx.userlevel = .admin)
    (hput : ctx.method = .put)
    (htenant : uuidvalid (mkuuid ((varGetStrForkey E.ihash ctx.bodyjson (asc "tenant")).getD [])))
    (hpw : varGetStrForkey E.ihash ctx.bodyjson (asc "password") ≠ none) :
    ∃ userdb', cmdUserSet E ctx (user :: rest) userdb = .ok (⟨200, none⟩, userdb') := by
  obtain ⟨pwdb, hload, hfile, -⟩ := h
  obtain ⟨hash, cs, hd, -, hrecord⟩ := hfile.asDict
  obtain ⟨r, hr, -⟩ := userRecord_eq hd huser
  rw [← hrecord E rfl] at hr
  have hfields : ¬ (ctx.method = .put ∧
      (¬ uuidvalid (mkuuid ((varGetStrForkey E.ihash ctx.bodyjson (asc "tenant")).getD [])) ∨
        varGetStrForkey E.ihash ctx.bodyjson (asc "password") = none)) := by
    rintro ⟨-, hno | hno⟩
    · exact hno htenant
    · exact hpw hno
  have hfound : ¬ ((varChild E.ihash pwdb user).isNone ∧ ctx.method = .post) := by
    rintro ⟨-, hpost⟩
    cases hput.symm.trans hpost
  simp only [cmdUserSet, hint, hload, hr, Outcome.ok_bind]
  rw [if_neg (by simp), if_neg hfields, if_neg (by simp [hadmin]), if_neg hfound,
    if_neg (by simp [hwritable])]
  exact ⟨_, rfl⟩

/-- Over any history of requests that set or remove users, answered or refused, the database holds exactly
the accounts that the answered ones ask for, and no further request fails to be answered. -/
theorem user_accounts_refined (h₀ : HoldsAccounts ihash A userdb₀)
    (h : ((userRequests userdb₀).guard fun _ l => l.1.Proper ihash).History ls userdb) :
    HoldsAccounts ihash (ls.foldl accountsAfter A) userdb ∧
      ∀ q : UserRequest, q.Proper ihash → ∃ reply userdb', q.answer userdb = .ok (reply, userdb') := by
  have hholds := holds_history h₀ h
  refine ⟨hholds, fun q hq => ?_⟩
  obtain ⟨reply, userdb', hanswer, -⟩ := hq.answer hholds
  exact ⟨reply, userdb', hanswer⟩

/-- `{"root": {"level": "ADMIN"}}` -/
def rootFile : UserDb := some (asc "\x7b\"root\": \x7b\"level\": \"ADMIN\"\x7d\x7d")

def rootRecord : Var :=
  .dict ⟨asc "root", by decide, by decide⟩ (hashToken 5138 (asc "root"))
    [.leaf ⟨asc "level", by decide, by decide⟩ (hashToken 5138 (asc "level")) (.str (asc "ADMIN"))]

theorem rootRecord_userDict : UserDict 5138 0 [rootRecord] := by
  have hval : (VarValue.str (asc "ADMIN")).Formed := by
    change 0 ∉ asc "ADMIN"
    decide
  have hrecord : UserRecord 5138 rootRecord := by
    refine ⟨.dict (by simp) ?_ ?_, rfl, ?_⟩
    · intro c hc
      obtain rfl := List.mem_singleton.mp hc
      exact ⟨by decide, by decide, rfl⟩
    · intro c hc
      obtain rfl := List.mem_singleton.mp hc
      exact .leaf hval (by decide +kernel)
    · intro c hc
      obtain rfl := List.mem_singleton.mp hc
      rfl
  refine ⟨.dict (by simp) ?_ ?_, ?_⟩
  · intro r hr
    obtain rfl := List.mem_singleton.mp hr
    exact ⟨by decide, by decide, rfl⟩
  · intro r hr
    obtain rfl := List.mem_singleton.mp hr
    exact hrecord.clean
  · intro r hr
    obtain rfl := List.mem_singleton.mp hr
    exact hrecord

def rootAccounts : Accounts := account 5138 (.dict FString.empty 0 [rootRecord])

theorem rootFile_holds : HoldsAccounts 5138 rootAccounts rootFile :=
  ⟨_, rfl, .users rootRecord_userDict (by simp), rfl⟩

def saltedEnv : UserEnv := ⟨5138, true, fun pw => storedHash pw (userSalt 1 2), true⟩

theorem saltedEnv_salted : saltedEnv.Salted (userSalt 1 2) := by
  have hctx : (⟨0, 0, ⟨0, 0, 0, 0⟩, List.replicate 64 7⟩ : Md5Context).buffer.length = 64 :=
    List.length_replicate
  exact ⟨⟨1, 2, rfl⟩, fun pw hpw => ⟨_, _, hctx, hctx, md5Pwcrypt_eq hctx hctx hpw (by decide)⟩⟩

/-- A body of texts. -/
def textBody (fields : List (List UInt8 × List UInt8)) : Var :=
  .dict FString.empty 0 (fields.map fun f => .leaf (FString.strncpy f.1) 0 (.str f.2))

/-- `PUT /user/ab` with `{"tenant": "00000000-0000-0001-0000-000000000002", "password": "x"}` -/
def putContext : ReqContext where
  method := .put
  remote := []
  bodyjson := textBody [(asc "tenant", uuid2str ⟨1, 2⟩), (asc "password", asc "x")]
  opticon_token := ⟨0, 0⟩
  external_token := none
  userlevel := .admin
  auth_tenants := []
  tenantid := ⟨0, 0⟩
  hostid := ⟨0, 0⟩

theorem putContext_storable : Storable saltedEnv putContext.bodyjson := by
  have hlevel : varGetStrForkey saltedEnv.ihash putContext.bodyjson (asc "level") = none := by decide +kernel
  have hpassword : varGetStrForkey saltedEnv.ihash putContext.bodyjson (asc "password") =
      some (asc "x") := by decide +kernel
  have hfields : ∀ f ∈ [(asc "tenant", uuid2str ⟨1, 2⟩), (asc "password", asc "x")],
      (FString.strncpy f.1).str ≠ [] ∧ 0 ∉ f.2 := by decide +kernel
  refine ⟨.dict (fun c hc => ?_) (fun c hc => ?_), fun s hs => ?_, fun s hs => ?_⟩
  · obtain ⟨f, hf, rfl⟩ := List.mem_map.mp hc
    exact (hfields f hf).1
  · obtain ⟨f, hf, rfl⟩ := List.mem_map.mp hc
    exact .leaf (hfields f hf).2
  · rw [hlevel] at hs
    cases hs
  · rw [hpassword] at hs
    obtain rfl := Option.some.inj hs
    decide

def putRequest : UserRequest := ⟨saltedEnv, putContext, [asc "ab"], false⟩

/-- `DELETE /user/root` -/
def rootGone : UserRequest := ⟨saltedEnv, putContext, [asc "root"], true⟩

theorem putRequest_proper : putRequest.Proper 5138 := by
  refine ⟨rfl, ⟨_, saltedEnv_salted⟩, fun user huser => ?_, putContext_storable⟩
  obtain rfl := Option.some.inj huser
  decide +kernel

theorem rootGone_proper : rootGone.Proper 5138 := by
  refine ⟨rfl, ⟨_, saltedEnv_salted⟩, fun user huser => ?_, putContext_storable⟩
  obtain rfl := Option.some.inj huser
  decide +kernel

theorem putRequest_done : ∃ userdb, putRequest.answer rootFile = .ok (⟨200, none⟩, userdb) :=
  @cmdUserSet_done rootFile rootAccounts saltedEnv (asc "ab") rootFile_holds (by decide +kernel) putContext
    [] rfl rfl rfl rfl (by decide +kernel) (by decide +kernel)

/-- A user is made, and there is another request then. -/
theorem user_accounts_refined_put : ∃ userdb reply userdb',
    putRequest.answer rootFile = .ok (⟨200, none⟩, userdb) ∧
      HoldsAccounts 5138 (accountsAfter rootAccounts (putRequest, ⟨200, none⟩)) userdb ∧
      rootGone.answer userdb = .ok (reply, userdb') := by
  obtain ⟨userdb, hput⟩ := putRequest_done
  obtain ⟨hholds, hnext⟩ := @user_accounts_refined 5138 userdb rootFile rootAccounts
    [(putRequest, ⟨200, none⟩)] rootFile_holds
    ((Transition.History.init rfl).step (S := (userRequests rootFile).guard fun _ l => l.1.Proper 5138)
      ⟨putRequest_proper, hput⟩)
  obtain ⟨reply, userdb', hgone⟩ := hnext rootGone rootGone_proper
  exact ⟨userdb, reply, userdb', hput, hholds, hgone⟩

end Opticon
