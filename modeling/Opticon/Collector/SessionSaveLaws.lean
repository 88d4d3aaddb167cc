import Opticon.Collector.SessionSave
import Opticon.Collector.TenantLaws
import Opticon.Crypto.Base64Laws
import Opticon.Var.Leaves
import Opticon.Var.Texts

/-! The sessions of a collector that starts again with the document of the one before. -/

namespace Opticon

open KeyedWrites

variable {net : Inet} {ihash : BitVec 32} {db : Sessiondb} {s : Session}

/-- The text of an address fits the buffer it is printed into, and is read back. -/
structure Inet.Prints (net : Inet) (remote : Sockaddr) : Prop where
  reread : str2ip net (ip2str net remote) = remote
  nul : 0 ∉ ip2str net remote
  fits : (ip2str net remote).length ≤ 45

/-! ## The document -/

/-- The fields of a session under their keys. -/
def sessionEntries (net : Inet) (s : Session) : List (FString × VarValue) :=
  (sessionFields net s).map fun f => (FString.strncpy f.1, f.2)

theorem sessionEntries_str (net : Inet) (s : Session) :
    (sessionEntries net s).map (fun e => (e.1.str, e.2)) = sessionFields net s := rfl

theorem sessionEntries_keys (net : Inet) (s : Session) :
    ((sessionEntries net s).map Prod.fst).map FString.str =
      [asc "tenantid", asc "hostid", asc "addr", asc "sessid", asc "lastcycle", asc "lastserial",
        asc "key", asc "remote"] := rfl

theorem sessionEntries_nodup (net : Inet) (s : Session) :
    ((sessionEntries net s).map Prod.fst).Nodup := by
  refine List.Nodup.of_map FString.str ?_
  rw [sessionEntries_keys]
  decide

def sessionVar (net : Inet) (ihash : BitVec 32) (s : Session) : Var :=
  .dict FString.empty 0 (leaves ihash (sessionEntries net s))

theorem saveSession_array (id : FString) (h : BitVec 32) (cs : List Var) (s : Session) :
    saveSession net ihash (.array id h cs) s = .array id h (cs ++ [sessionVar net ihash s]) := by
  have hkeys : ∀ w ∈ sessionEntries net s, w.1.str ≠ [] := fun w hw => by
    have hmem : w.1.str ∈ ((sessionEntries net s).map Prod.fst).map FString.str :=
      List.mem_map_of_mem (List.mem_map_of_mem hw)
    rw [sessionEntries_keys] at hmem
    intro hnil
    rw [hnil] at hmem
    revert hmem
    decide
  have hfill : (sessionFields net s).foldl (fun v f => varSetForkey ihash v f.1 f.2)
      (.dict FString.empty 0 []) = sessionVar net ihash s := by
    rw [← sessionEntries_str, List.foldl_map]
    have hleaves : (sessionEntries net s).foldl (fun v w => varSetForkey ihash v w.1.str w.2)
        (.dict FString.empty 0 (leaves ihash [])) =
        .dict FString.empty 0 (leaves ihash (writeAll VarValue.onto [] (sessionEntries net s))) :=
      foldl_varSetForkey_leaves hkeys
    have hnd : (([] : List (FString × VarValue)).map Prod.fst ++
        (sessionEntries net s).map Prod.fst).Nodup := sessionEntries_nodup net s
    rw [writeAll_new hnd] at hleaves
    exact hleaves
  rw [saveSession, varAddDict, varAddNode_array]
  simp only
  change Var.put _ _ ((sessionFields net s).foldl _ (.dict FString.empty 0 [])) = _
  rw [hfill]
  simp [Var.put]

theorem foldl_saveSession (id : FString) (h : BitVec 32) (cs : List Var) (l : List Session) :
    l.foldl (saveSession net ihash) (.array id h cs) =
      .array id h (cs ++ l.map (sessionVar net ihash)) := by
  induction l generalizing cs with
  | nil => simp
  | cons s l ih => rw [List.foldl_cons, saveSession_array, ih, List.map_cons, List.append_assoc,
      List.singleton_append]

/-- The document that is written for a list of sessions. -/
def sessionDoc (net : Inet) (ihash : BitVec 32) (l : List Session) : Var :=
  .dict FString.empty 0 [.array (FString.strncpy (asc "session"))
    (hashToken ihash (asc "session")) (l.map (sessionVar net ihash))]

theorem varGetArrayForkey_null {key : List UInt8} (hne : (FString.strncpy key).str ≠ []) :
    varGetArrayForkey ihash (varAlloc .null) key =
      (.dict FString.empty 0 [.array (FString.strncpy key) (hashToken ihash key) []],
        some (some 0, .array (FString.strncpy key) (hashToken ihash key) [])) := by
  have hhash : (Var.node false (FString.strncpy key) (hashToken ihash key) []).hashcode ≠ 0 :=
    hashToken_ne_zero ihash _
  have hid : (Var.node false (FString.strncpy key) (hashToken ihash key) []).id.str ≠ [] := hne
  simp only [varGetArrayForkey, varGetNodeForkey, varAlloc, varForkey, varFindKey, varLink,
    if_neg (not_and_of_not_left _ hhash), if_neg hid]
  rfl

theorem saveSessions_eq (net : Inet) (ihash : BitVec 32) (l : List Session) :
    saveSessions net ihash l = sessionDoc net ihash l := by
  have hne : (FString.strncpy (asc "session")).str ≠ [] := by
    simp [FString.strncpy, asc]
  unfold saveSessions sessionDoc
  generalize asc "session" = key at hne ⊢
  rw [varGetArrayForkey_null hne]
  simp only [foldl_saveSession, List.nil_append]
  rfl

theorem sessiondbSave_eq (net : Inet) (ihash : BitVec 32) (db : Sessiondb) :
    sessiondbSave net ihash db = sessionDoc net ihash (savedSessions db) := by
  rw [sessiondbSave, saveSessions_eq]

/-- What cannot be printed of any session: its address, and a year of four digits. -/
structure Savable (net : Inet) (s : Session) : Prop where
  remote : net.Prints s.remote
  year : (Calendar.ofDays (s.lastcycle / 86400)).year ≤ 9999

theorem length_valueText_number (n : BitVec 64) : (valueText (.int n)).length ≤ 20 :=
  Decimal.length_write_le (by decide) (n.isLt.trans (by decide))

theorem length_valueText_short {str : List UInt8} (h : str.length ≤ 68) :
    (valueText (.str str)).length ≤ 4095 := by
  have hesc := length_varEscapeStr_le str
  have hquote : (asc "\"").length = 1 := by decide
  simp only [valueText, List.length_append, hquote]
  omega

theorem sessionFields_formed (hs : Savable net s) {f : List UInt8 × VarValue}
    (hf : f ∈ sessionFields net s) : f.2.Formed ∧ (valueText f.2).length ≤ 4095 := by
  have hint (n : BitVec 64) : (valueText (.int n)).length ≤ 4095 :=
    (length_valueText_number n).trans (by decide)
  obtain ⟨hkey, hkeylen⟩ := aeskeyToBase64_spec s.key
  have htimelen := (utcstr2time_time2utcstr (gmtime 0) hs.year).1
  simp only [sessionFields, List.mem_cons, List.not_mem_nil, or_false] at hf
  obtain rfl | rfl | rfl | rfl | rfl | rfl | rfl | rfl := hf
  · exact ⟨nul_uuid2str _, length_valueText_short (by rw [length_uuid2str]; decide)⟩
  · exact ⟨nul_uuid2str _, length_valueText_short (by rw [length_uuid2str]; decide)⟩
  · exact ⟨trivial, hint _⟩
  · exact ⟨trivial, hint _⟩
  · exact ⟨time2utcstr_nul _, length_valueText_short (by omega)⟩
  · exact ⟨trivial, hint _⟩
  · exact ⟨hkey, length_valueText_short hkeylen⟩
  · exact ⟨hs.remote.nul, length_valueText_short (hs.remote.fits.trans (by decide))⟩

theorem leaves_clean {n : Nat} {id : FString} {h : BitVec 32} {es : List (FString × VarValue)}
    (hnd : (es.map Prod.fst).Nodup) (hkey : ∀ e ∈ es, e.1.str ≠ [] ∧ 10 ∉ e.1.str)
    (hval : ∀ e ∈ es, e.2.Formed ∧ (valueText e.2).length ≤ 4095) :
    (Var.dict id h (leaves ihash es)).Clean ihash (n + 1) := by
  refine .dict ?_ (fun c hc => ?_) fun c hc => ?_
  · rw [leaves, List.map_map]
    exact hnd
  · obtain ⟨e, he, rfl⟩ := List.mem_map.mp hc
    exact ⟨(hkey e he).1, (hkey e he).2, rfl⟩
  · obtain ⟨e, he, rfl⟩ := List.mem_map.mp hc
    exact .leaf (hval e he).1 (hval e he).2

theorem sessionVar_clean (hs : Savable net s) (ihash : BitVec 32) (n : Nat) :
    (sessionVar net ihash s).Clean ihash (n + 1) := by
  refine leaves_clean (sessionEntries_nodup net s) (fun e he => ?_) fun e he => ?_
  · have hmem : e.1.str ∈ ((sessionEntries net s).map Prod.fst).map FString.str :=
      List.mem_map_of_mem (List.mem_map_of_mem he)
    rw [sessionEntries_keys] at hmem
    revert hmem
    generalize e.1.str = key
    revert key
    decide
  · obtain ⟨f, hf, rfl⟩ := List.mem_map.mp he
    exact sessionFields_formed hs hf

theorem sessionDoc_document {l : List Session} (hl : ∀ s ∈ l, Savable net s)
    (ihash : BitVec 32) : (sessionDoc net ihash l).Document ihash := by
  have hne : (FString.strncpy (asc "session")).str ≠ [] ∧
      10 ∉ (FString.strncpy (asc "session")).str := by
    simp [FString.strncpy, asc]
  have hhash : (FString.strncpy (asc "session")).str = asc "session" := rfl
  unfold sessionDoc
  generalize asc "session" = key at hne hhash ⊢
  refine ⟨.dict (List.nodup_singleton _) (fun c hc => ?_) fun c hc => ?_, ⟨0, _, rfl⟩,
    List.cons_ne_nil _ _⟩
  · obtain rfl := List.mem_singleton.mp hc
    exact ⟨hne.1, hne.2, by rw [Var.hashcode, Var.id, hhash]⟩
  · obtain rfl := List.mem_singleton.mp hc
    refine .array (fun d hd => ?_) fun d hd => ?_
    · obtain ⟨s, -, rfl⟩ := List.mem_map.mp hd
      rfl
    · obtain ⟨s, hs, rfl⟩ := List.mem_map.mp hd
      exact sessionVar_clean (hl s hs) ihash _

/-- The hash of a process is not in what it writes, so another process reads the same. -/
theorem sessionDoc_reread {l : List Session} (hl : ∀ s ∈ l, Savable net s)
    (ihash ihash' : BitVec 32) : (varDump (sessionDoc net ihash l)).1 = true ∧
      ∃ w, varLoadJson ihash' (some (varDump (sessionDoc net ihash l)).2) = .ok (some w) ∧
        w.Document ihash' ∧ w.shown = (sessionDoc net ihash' l).shown := by
  have hdoc := sessionDoc_document hl ihash
  have hdoc' := sessionDoc_document hl ihash'
  have hbare : (sessionDoc net ihash l).bare = (sessionDoc net ihash' l).bare := by
    simp [sessionDoc, sessionVar, leaves]
  have htext : (varDump (sessionDoc net ihash l)).2 = (varDump (sessionDoc net ihash' l)).2 := by
    rw [varDump_eq hdoc.clean.printable, varDump_eq hdoc'.clean.printable, ← documentText_bare,
      hbare, documentText_bare]
  rw [htext]
  exact ⟨hdoc.reread.1, hdoc'.reread.2⟩

/-! ## What is restored -/

/-- A dictionary that was read has the fields of a session. -/
structure Rereads (net : Inet) (ihash : BitVec 32) (s : Session) (v : Var) : Prop where
  clean : ∃ n, v.Clean ihash (n + 1)
  shown : v.shown = (sessionVar net ihash s).shown

theorem Rereads.varChild {v : Var} (h : Rereads net ihash s v) {key : List UInt8} {val : VarValue}
    (hmem : (key, val) ∈ sessionFields net s) (hval : ∀ dval, val ≠ .double dval) :
    ∃ id hash, varChild ihash v key = some (.leaf id hash val) := by
  obtain ⟨⟨n, hclean⟩, hshown⟩ := h
  rw [← sessionEntries_str] at hmem
  obtain ⟨⟨k, x⟩, he, hkx⟩ := List.mem_map.mp hmem
  cases hkx
  cases v with
  | leaf _ _ _ => cases hshown
  | array _ _ _ => cases hshown
  | dict id hash cs =>
    have hmap : cs.map Var.shown = (leaves ihash (sessionEntries net s)).map Var.shown := by
      simpa [sessionVar, Var.shown, Var.shownAll_eq_map] using (Var.dict.inj hshown).2.2
    have hleaf : Var.leaf k 0 x.shown ∈ cs.map Var.shown := by
      rw [hmap, leaves, List.map_map]
      exact List.mem_map.mpr ⟨(k, x), he, rfl⟩
    obtain ⟨c, hc, hcs⟩ := List.mem_map.mp hleaf
    have hself := hclean.varChild_self hc
    cases c with
    | dict _ _ _ => cases hcs
    | array _ _ _ => cases hcs
    | leaf id' hash' val' =>
      obtain ⟨hid, -, hv⟩ := Var.leaf.inj hcs
      have hx : val' = x := VarValue.eq_of_shown hv hval
      rw [Var.id, hid, hx] at hself
      exact ⟨k, hash', hself⟩

theorem Rereads.str {v : Var} (h : Rereads net ihash s v) {key str : List UInt8}
    (hmem : (key, .str str) ∈ sessionFields net s) :
    varGetStrForkey ihash v key = some str := by
  obtain ⟨id, hash, hchild⟩ := h.varChild hmem (by simp)
  rw [varGetStrForkey, hchild]
  rfl

theorem Rereads.int {v : Var} (h : Rereads net ihash s v) {key : List UInt8} {n : BitVec 32}
    (hmem : (key, .int (n.setWidth 64)) ∈ sessionFields net s) :
    (varGetIntForkey ihash v key).setWidth 32 = n := by
  obtain ⟨id, hash, hchild⟩ := h.varChild hmem (by simp)
  rw [varGetIntForkey, hchild]
  exact BitVec.setWidth_setWidth_of_le n (by decide)

/-- The session is linked in as it was, at a host of its tenant under its id. -/
theorem Rereads.restore {p : Restart} {v : Var} (hv : Rereads net p.ihash s v)
    (hs : Savable net s) (hexp : s.expired = false) (hcb : ∀ T h, (p.cb T h).uuid = h.uuid)
    {c : Collector} (hc : c.Arranged) :
    ∃ c' h, restoreSession net p c v = .ok c' ∧
      c'.sessions = sessionLink c.sessions { s with host := h } ∧ c'.Arranged ∧
      c'.Links h s.tenantid s.hostid ∧ ∀ addr T H, c.Links addr T H → c'.Links addr T H := by
  have htenant : varGetUuidForkey p.ihash v (asc "tenantid") = s.tenantid := by
    have hstr : varGetStrForkey p.ihash v (asc "tenantid") = some (uuid2str s.tenantid) :=
      hv.str (by simp [sessionFields])
    rw [varGetUuidForkey, hstr]
    exact mkuuid_uuid2str _
  have hhost : varGetUuidForkey p.ihash v (asc "hostid") = s.hostid := by
    have hstr : varGetStrForkey p.ihash v (asc "hostid") = some (uuid2str s.hostid) :=
      hv.str (by simp [sessionFields])
    rw [varGetUuidForkey, hstr]
    exact mkuuid_uuid2str _
  have htime : varGetTimeForkey p.tm p.ihash v (asc "lastcycle") = s.lastcycle := by
    have hmem : (asc "lastcycle", VarValue.str (time2utcstr s.lastcycle)) ∈
        sessionFields net s := by simp [sessionFields]
    obtain ⟨id, hash, hchild⟩ := hv.varChild hmem (by simp)
    rw [varGetTimeForkey, hchild, Option.map_some, Option.getD_some, varGetTime,
      (utcstr2time_time2utcstr p.tm hs.year).2, Int.toNat_natCast]
  have hkey : varGetStrForkey p.ihash v (asc "key") = some (aeskeyToBase64 s.key) :=
    hv.str (by simp [sessionFields])
  have hremote : varGetStrForkey p.ihash v (asc "remote") = some (ip2str net s.remote) :=
    hv.str (by simp [sessionFields])
  have haddr : (varGetIntForkey p.ihash v (asc "addr")).setWidth 32 = s.addr :=
    hv.int (by simp [sessionFields])
  have hsessid : (varGetIntForkey p.ihash v (asc "sessid")).setWidth 32 = s.sessid :=
    hv.int (by simp [sessionFields])
  have hserial : (varGetIntForkey p.ihash v (asc "lastserial")).setWidth 32 = s.lastserial :=
    hv.int (by simp [sessionFields])
  obtain ⟨harr, hsess, hlinks, hkeep⟩ := Collector.hostFind_spec hc s.tenantid s.hostid
  rw [restoreSession]
  simp only [htenant, hhost, hkey, hremote, htime, haddr, hsessid, hserial, aeskey_text,
    hs.remote.reread]
  generalize hostFind c s.tenantid s.hostid = r at harr hsess hlinks hkeep ⊢
  obtain ⟨h, c₁⟩ := r
  simp only at harr hsess hlinks hkeep ⊢
  obtain ⟨host, hderef⟩ := hlinks.deref
  have hid : ∀ n ∈ c₁.linked, n.2.addr = h → n.2.host.uuid = (p.cb s.tenantid host).uuid := by
    intro n hn hna
    obtain ⟨n', hn', haddr', hhost'⟩ := Collector.deref_ok hderef
    rw [hcb, ← hhost', harr.eq_of_addr hn hn' (hna.trans haddr'.symm)]
  have harr' := Collector.Arranged.setHost hid harr
  rw [hderef]
  refine ⟨_, h, rfl, ?_, ⟨harr'.tenantids, harr'.fresh, harr'.addrs, harr'.hostids⟩, ?_, ?_⟩
  · rw [← hsess, ← hexp]
    rfl
  · exact (Collector.links_setHost hid).mpr hlinks
  · exact fun addr T H hl => (Collector.links_setHost hid).mpr (hkeep addr T H hl)

/-- All but the pointer to the host. -/
def Session.record (s : Session) : Session := { s with host := 0 }

/-- The sessions of a list are in the table, each at a host of its tenant. -/
structure Restored (l : List Session) (c : Collector) : Prop where
  arranged : c.Arranged
  formed : c.sessions.Formed
  live : ∀ x, (∃ s, c.sessions.Live s ∧ s.record = x) ↔ ∃ s ∈ l, s.record = x
  links : ∀ s, c.sessions.Live s → c.Links s.host s.tenantid s.hostid

theorem restored_empty : Restored [] Collector.empty where
  arranged := Collector.Arranged.empty
  formed := Sessiondb.Formed.empty
  live x := by
    constructor
    · rintro ⟨s, ⟨i, hmem, -⟩, -⟩
      exact absurd hmem List.not_mem_nil
    · rintro ⟨s, hmem, -⟩
      exact absurd hmem List.not_mem_nil
  links s := by
    rintro ⟨i, hmem, -⟩
    exact absurd hmem List.not_mem_nil

theorem Restored.session {l : List Session} {c : Collector} (h : Restored l c)
    {p : Restart} {v : Var} (hv : Rereads net p.ihash s v) (hs : Savable net s)
    (hexp : s.expired = false) (hcb : ∀ T h, (p.cb T h).uuid = h.uuid)
    (hnew : ∀ x ∈ l, ¬ (x.addr = s.addr ∧ x.sessid = s.sessid)) :
    ∃ c', restoreSession net p c v = .ok c' ∧ Restored (l ++ [s]) c' := by
  obtain ⟨c', host, hok, hsess, harr, hlinks, hkeep⟩ := hv.restore hs hexp hcb h.arranged
  have hnone : sessionFind c.sessions s.addr s.sessid = none := by
    cases hfind : sessionFind c.sessions s.addr s.sessid with
    | none => rfl
    | some t =>
      obtain ⟨hlive, haddr, hsid⟩ := h.formed.find_eq_some_iff.mp hfind
      obtain ⟨x, hx, hrecord⟩ := (h.live _).mp ⟨t, hlive, rfl⟩
      have haddr' : x.record.addr = t.record.addr := congrArg Session.addr hrecord
      have hsid' : x.record.sessid = t.record.sessid := congrArg Session.sessid hrecord
      exact absurd ⟨haddr'.trans haddr, hsid'.trans hsid⟩ (hnew x hx)
  refine ⟨c', hok, harr, ?_, fun x => ?_, fun t ht => ?_⟩
  · rw [hsess]
    exact h.formed.link _ hnone
  · rw [hsess]
    constructor
    · rintro ⟨t, ht, rfl⟩
      obtain rfl | ht := Sessiondb.live_link ht
      · exact ⟨s, by simp, rfl⟩
      · obtain ⟨y, hy, hrecord⟩ := (h.live _).mp ⟨t, ht, rfl⟩
        exact ⟨y, List.mem_append_left _ hy, hrecord⟩
    · rintro ⟨y, hy, rfl⟩
      rcases List.mem_append.mp hy with hy | hy
      · obtain ⟨t, ⟨i, hmem, hlive⟩, hrecord⟩ := (h.live _).mpr ⟨y, hy, rfl⟩
        exact ⟨t, ⟨i, Sessiondb.mem_link.mpr (.inr hmem), hlive⟩, hrecord⟩
      · obtain rfl := List.mem_singleton.mp hy
        exact ⟨_, ⟨_, Sessiondb.mem_link.mpr (.inl ⟨rfl, rfl⟩), hexp⟩, rfl⟩
  · rw [hsess] at ht
    obtain rfl | ht := Sessiondb.live_link ht
    · exact hlinks
    · exact hkeep _ _ _ (h.links t ht)

theorem Restored.sessions {p : Restart}
    (hcb : ∀ T h, (p.cb T h).uuid = h.uuid) {l rest : List Session} {vs : List Var}
    {c : Collector} (h : Restored l c) (hvs : List.Forall₂ (Rereads net p.ihash) rest vs)
    (hrest : ∀ s ∈ rest, Savable net s ∧ s.expired = false)
    (hdistinct : (l ++ rest).Pairwise fun s t => ¬ (s.addr = t.addr ∧ s.sessid = t.sessid)) :
    ∃ c', vs.foldlM (restoreSession net p) c = .ok c' ∧ Restored (l ++ rest) c' := by
  induction hvs generalizing l c with
  | nil => exact ⟨c, rfl, by rwa [List.append_nil]⟩
  | @cons s v rest vs hv _ ih =>
    have hnew : ∀ x ∈ l, ¬ (x.addr = s.addr ∧ x.sessid = s.sessid) := fun x hx =>
      (List.pairwise_append.mp hdistinct).2.2 x hx s List.mem_cons_self
    obtain ⟨hs, hexp⟩ := hrest s List.mem_cons_self
    obtain ⟨c₁, hok, h₁⟩ := h.session hv hs hexp hcb hnew
    rw [List.append_cons] at hdistinct ⊢
    obtain ⟨c₂, hok₂, h₂⟩ := ih h₁ (fun t ht => hrest t (List.mem_cons_of_mem _ ht)) hdistinct
    refine ⟨c₂, ?_, h₂⟩
    rw [List.foldlM_cons, hok]
    exact hok₂

/-! ## The whole table -/

theorem mem_savedSessions : s ∈ savedSessions db ↔ db.Live s := by
  simp only [savedSessions, List.mem_flatMap, List.mem_range, List.mem_filter,
    Bool.not_eq_true', Sessiondb.Live]
  constructor
  · rintro ⟨i, -, hmem, hexp⟩
    exact ⟨_, hmem, hexp⟩
  · rintro ⟨i, hmem, hexp⟩
    refine ⟨i.toNat, i.isLt, ?_, hexp⟩
    rwa [BitVec.ofNat_toNat, BitVec.setWidth_eq]

theorem savedSessions_distinct (hdb : db.Formed) :
    (savedSessions db).Pairwise fun s t => ¬ (s.addr = t.addr ∧ s.sessid = t.sessid) := by
  rw [savedSessions, List.pairwise_flatMap]
  constructor
  · intro i _
    rw [List.pairwise_filter]
    refine (hdb.distinct _).imp fun {s t} hst hs ht => ?_
    exact hst (by simpa using hs) (by simpa using ht)
  · -- sessions of two buckets hash to different ones
    refine List.Pairwise.imp_of_mem ?_ (List.nodup_range (n := 256))
    intro i j hi hj hij s hs t ht hsame
    have hsi := hdb.placed _ s (List.mem_filter.mp hs).1
    have htj := hdb.placed _ t (List.mem_filter.mp ht).1
    rw [hsame.1, hsame.2, htj] at hsi
    have hnat := congrArg BitVec.toNat hsi
    rw [BitVec.toNat_ofNat, BitVec.toNat_ofNat, Nat.mod_eq_of_lt (List.mem_range.mp hi),
      Nat.mod_eq_of_lt (List.mem_range.mp hj)] at hnat
    exact hij hnat.symm

theorem rereads_of_shown {l : List Session} {ds : List Var} {n : Nat}
    (hmap : ds.map Var.shown = l.map fun s => (sessionVar net ihash s).shown)
    (hclean : ∀ d ∈ ds, d.Clean ihash n) : List.Forall₂ (Rereads net ihash) l ds := by
  induction l generalizing ds with
  | nil =>
    rw [List.map_nil, List.map_eq_nil_iff] at hmap
    rw [hmap]
    exact .nil
  | cons s l ih =>
    cases ds with
    | nil => cases hmap
    | cons d ds =>
      rw [List.map_cons, List.map_cons, List.cons.injEq] at hmap
      refine .cons ⟨?_, hmap.1⟩ (ih hmap.2 fun e he => hclean e (List.mem_cons_of_mem _ he))
      have hd := hclean d List.mem_cons_self
      cases d with
      | leaf _ _ _ => cases hmap.1
      | array _ _ _ => cases hmap.1
      | dict _ _ _ =>
        cases hd with
        | dict h₁ h₂ h₃ => exact ⟨_, .dict h₁ h₂ h₃⟩

/-- The list of sessions is found in the document that was read. -/
theorem sessionDoc_children {l : List Session} {w : Var} (hw : w.Document ihash)
    (hshown : w.shown = (sessionDoc net ihash l).shown) :
    ∃ place v, (varGetArrayForkey ihash w (asc "session")).2 = some (place, v) ∧
      List.Forall₂ (Rereads net ihash) l v.children := by
  have hkey : (FString.strncpy (asc "session")).str = asc "session" := rfl
  unfold sessionDoc at hshown
  generalize asc "session" = key at hkey hshown ⊢
  obtain ⟨hclean, ⟨h, cs, rfl⟩, -⟩ := hw
  have hmap : cs.map Var.shown = [(Var.array (FString.strncpy key) (hashToken ihash key)
      (l.map (sessionVar net ihash))).shown] := by
    simpa [Var.shown, Var.shownAll_eq_map] using (Var.dict.inj hshown).2.2
  obtain ⟨v, rfl, hv⟩ := List.map_eq_singleton_iff.mp hmap
  cases v with
  | leaf _ _ _ => cases hv
  | dict _ _ _ => cases hv
  | array id hash ds =>
    obtain rfl : id = FString.strncpy key := (Var.array.inj hv).1
    have hds : ds.map Var.shown = l.map fun s => (sessionVar net ihash s).shown := by
      simpa [Var.shown, Var.shownAll_eq_map, Function.comp_def] using (Var.array.inj hv).2.2
    have hchild : varChild ihash (.dict FString.empty h [.array (FString.strncpy key) hash ds]) key =
        some (.array (FString.strncpy key) hash ds) := by
      have hself := hclean.varChild_self (List.mem_singleton_self (Var.array (FString.strncpy key) hash ds))
      rwa [Var.id, hkey] at hself
    have hsnd : (varForkey ihash (.dict FString.empty h [.array (FString.strncpy key) hash ds]) key
        fun id h => Var.node false id h []).2.2 = .array (FString.strncpy key) hash ds := by
      rw [varForkey_snd _ fun _ _ => rfl, hchild, Option.getD_some]
    have hnode : (varGetArrayForkey ihash
        (.dict FString.empty h [.array (FString.strncpy key) hash ds]) key).2 =
        some (varForkey ihash (.dict FString.empty h [.array (FString.strncpy key) hash ds]) key
          fun id h => Var.node false id h []).2 := by
      rw [varGetArrayForkey, varGetNodeForkey]
      simp only [hsnd]
      rfl
    refine ⟨_, _, hnode, ?_⟩
    rw [hsnd]
    cases hclean with
    | dict _ _ hcs =>
      have harr := hcs _ List.mem_cons_self
      cases harr with
      | array _ hclean => exact rereads_of_shown hds hclean

/-- Each session that has not expired is found after a restart, with all it had, at a host of
its tenant under its id; and none is found that was not found before. -/
theorem sessions_survive_restart (hdb : db.Formed)
    (hs : ∀ s, db.Live s → Savable net s) (ihash : BitVec 32) (p : Restart)
    (hcb : ∀ T h, (p.cb T h).uuid = h.uuid) :
    (varDump (sessiondbSave net ihash db)).1 = true ∧
      ∃ list c, varLoadJson p.ihash (some (varDump (sessiondbSave net ihash db)).2) =
          .ok (some list) ∧
        sessiondbRestore net p list Collector.empty = .ok c ∧ c.sessions.Formed ∧
        ∀ addr sessid, (sessionFind c.sessions addr sessid).map Session.record =
            (sessionFind db addr sessid).map Session.record ∧
          ∀ s, sessionFind c.sessions addr sessid = some s →
            c.Links s.host s.tenantid s.hostid := by
  have hsaved : ∀ s ∈ savedSessions db, Savable net s ∧ s.expired = false := fun s h => by
    have hlive := mem_savedSessions.mp h
    obtain ⟨i, -, hexp⟩ := id hlive
    exact ⟨hs s hlive, hexp⟩
  rw [sessiondbSave_eq]
  obtain ⟨hdump, list, hload, hdoc, hshown⟩ :=
    sessionDoc_reread (fun s h => (hsaved s h).1) ihash p.ihash
  obtain ⟨place, v, hget, hvs⟩ := sessionDoc_children hdoc hshown
  obtain ⟨c, hrestore, hrestored⟩ := restored_empty.sessions hcb hvs hsaved
    (savedSessions_distinct hdb)
  rw [List.nil_append] at hrestored
  refine ⟨hdump, list, c, hload, by rw [sessiondbRestore, hget]; exact hrestore,
    hrestored.formed, fun addr sessid => ⟨?_, fun s hfind => ?_⟩⟩
  · ext x
    simp only [Option.map_eq_some_iff, hrestored.formed.find_eq_some_iff, hdb.find_eq_some_iff]
    have hlive := hrestored.live x
    simp only [mem_savedSessions] at hlive
    constructor
    · rintro ⟨s, ⟨hl, rfl, rfl⟩, hx⟩
      obtain ⟨t, ht, rfl⟩ := hlive.mp ⟨s, hl, hx⟩
      have haddr : s.record.addr = t.record.addr := congrArg Session.addr hx
      have hsid : s.record.sessid = t.record.sessid := congrArg Session.sessid hx
      exact ⟨t, ⟨ht, haddr.symm, hsid.symm⟩, rfl⟩
    · rintro ⟨t, ⟨ht, rfl, rfl⟩, hx⟩
      obtain ⟨s, hl, rfl⟩ := hlive.mpr ⟨t, ht, hx⟩
      have haddr : t.record.addr = s.record.addr := congrArg Session.addr hx
      have hsid : t.record.sessid = s.record.sessid := congrArg Session.sessid hx
      exact ⟨s, ⟨hl, haddr.symm, hsid.symm⟩, rfl⟩
  · exact hrestored.links s (hrestored.formed.find_eq_some_iff.mp hfind).1

def localSession : Session where
  tenantid := ⟨1, 2⟩
  hostid := ⟨3, 4⟩
  addr := 0x0100007f
  sessid := 5
  lastserial := 6
  key := ⟨List.replicate 32 7, rfl⟩
  lastcycle := 1500000000
  remote := .inet 0x0100007f
  host := 0
  expired := false

/-- On one address. -/
def localNet : Inet where
  ntop4 _ := asc "127.0.0.1"
  ntop6 _ _ _ _ := asc "::1"
  ntopOther := asc "::1"
  pton4 _ := .inet 0x0100007f
  pton6 _ := .inet6 0 0 0 1

theorem sessions_survive_restart_local : ∃ list c,
    varLoadJson 5138 (some (varDump (sessiondbSave localNet 1 (sessionLink .empty localSession))).2) =
        .ok (some list) ∧
      sessiondbRestore localNet ⟨5138, gmtime 0, localSession.key, fun _ h => h⟩ list
        Collector.empty = .ok c ∧
      (sessionFind c.sessions 0x0100007f 5).map Session.record = some localSession := by
  have hdb : (sessionLink .empty localSession).Formed :=
    Sessiondb.Formed.empty.link localSession rfl
  have hlive : ∀ s, (sessionLink .empty localSession).Live s → Savable localNet s := by
    intro s hs
    obtain rfl | ⟨i, hmem, -⟩ := Sessiondb.live_link hs
    · exact ⟨⟨rfl, by decide, by decide⟩, by decide +kernel⟩
    · exact absurd hmem List.not_mem_nil
  obtain ⟨-, list, c, hload, hrestore, -, hfind⟩ := sessions_survive_restart hdb hlive 1
    ⟨5138, gmtime 0, localSession.key, fun _ h => h⟩ fun _ _ => rfl
  exact ⟨list, c, hload, hrestore, (hfind 0x0100007f 5).1⟩

end Opticon
