import Opticon.Api.AuthsessionLaws

/-! Histories of logins and of lookups of any sessions: a session is found for as long as it is used
often enough. -/

namespace Opticon

open Linked

inductive SessionCall
  | create (id tenant : Uuid) (userlevel : AuthLevel) (now : ℤ)
  | find (id : Uuid) (now : ℤ)

namespace SessionCall

def id : SessionCall → Uuid
  | create id _ _ _ => id
  | find id _ => id

def now : SessionCall → ℤ
  | create _ _ _ now => now
  | find _ now => now

def created : SessionCall → Option Uuid
  | create id _ _ _ => some id
  | find _ _ => none

def run (t : Authsessionlist) : SessionCall → Except Fault Authsessionlist
  | create id tenant userlevel now => t.authsessionCreate id tenant userlevel now
  | find id now => do return (← t.authsessionFind id now).2

def runAll (calls : List SessionCall) : Except Fault Authsessionlist := calls.foldlM run authsessionInit

/-- New sessions get new ids, and the clock is not set back. -/
structure Proper (calls : List SessionCall) : Prop where
  fresh : (calls.filterMap created).Nodup
  ordered : (calls.map now).Pairwise (· ≤ ·)

/-- The session that a lookup behind some calls gives. -/
def answer (calls : List SessionCall) (id : Uuid) (now : ℤ) : Except Fault (Option Authsession) := do
  match ← (← runAll calls).authsessionFind id now with
  | (none, _) => return none
  | (some s, t) => return some (← t.read s).val

end SessionCall

open SessionCall

/-- The times at which a session was created and then asked for. -/
def uses (id : Uuid) (calls : List SessionCall) : List ℤ :=
  ((calls.dropWhile fun c => c.created ≠ some id).filter fun c => c.id = id).map now

/-- None of these times is too long after the one before it. -/
def Lively (ts : List ℤ) : Prop := ts.IsChain fun t t' => t' - t < SESSION_IDLE_TIMEOUT

def Created (id : Uuid) (calls : List SessionCall) : Prop := some id ∈ calls.map created

/-- It was created, and then never left alone for too long. -/
def InUse (id : Uuid) (calls : List SessionCall) (now : ℤ) : Prop :=
  Created id calls ∧ Lively (uses id calls ++ [now])

variable {calls more : List SessionCall} {c : SessionCall} {id tenant : Uuid} {userlevel : AuthLevel}
  {now last : ℤ} {ts us : List ℤ} {v : Authsession} {a : Nat} {r : Option Nat}
  {l l' l₁ l₂ : List (Nat × Authsession)}

theorem Lively.of_append (h : Lively (ts ++ us)) : Lively ts := List.IsChain.left_of_append h

theorem lively_snoc (hlast : ts.getLast? = some last) :
    Lively (ts ++ [now]) ↔ Lively ts ∧ now - last < SESSION_IDLE_TIMEOUT := by
  rw [Lively, List.isChain_append, hlast]
  simp [Lively]

theorem id_of_created (h : c.created = some id) : c.id = id := by
  cases c with
  | create _ _ _ _ => exact Option.some.inj h
  | find _ _ => cases h

theorem Created.append (h : Created id calls) (more : List SessionCall) : Created id (calls ++ more) := by
  rw [Created, List.map_append]
  exact List.mem_append_left _ h

theorem created_snoc : Created id (calls ++ [c]) ↔ Created id calls ∨ c.created = some id := by
  rw [Created, List.map_append, List.mem_append, List.map_singleton, List.mem_singleton, eq_comm (a := some id)]
  rfl

theorem uses_append (h : Created id calls) :
    uses id (calls ++ more) = uses id calls ++ (more.filter fun c => c.id = id).map SessionCall.now := by
  have hne : (calls.dropWhile fun c => c.created ≠ some id) ≠ [] := by
    obtain ⟨c, hc, hid⟩ := List.mem_map.mp h
    intro hnil
    simpa [hid] using List.dropWhile_eq_nil_iff.mp hnil c hc
  rw [uses, uses, List.dropWhile_append, if_neg (by simpa using hne), List.filter_append, List.map_append]

theorem uses_create (h : ¬ Created id calls) :
    uses id (calls ++ [.create id tenant userlevel now]) = [now] := by
  have hnil : (calls.dropWhile fun c => c.created ≠ some id) = [] := by
    rw [List.dropWhile_eq_nil_iff]
    intro c hc
    simpa using fun hid => h (List.mem_map.mpr ⟨c, hc, hid⟩)
  rw [uses, List.dropWhile_append, hnil]
  simp [created, SessionCall.id, SessionCall.now]

theorem exists_of_mem_uses (h : now ∈ uses id calls) : ∃ c ∈ calls, c.now = now := by
  obtain ⟨c, hc, rfl⟩ := List.mem_map.mp h
  exact ⟨c, (List.dropWhile_sublist _).subset (List.mem_of_mem_filter hc), rfl⟩

theorem uses_find (h : Created id calls) : uses id (calls ++ [.find id now]) = uses id calls ++ [now] := by
  rw [uses_append h]
  simp [SessionCall.id, SessionCall.now]

theorem uses_other (h : Created id calls) (hne : c.id ≠ id) : uses id (calls ++ [c]) = uses id calls := by
  rw [uses_append h]
  simp [hne]

/-! ### The sessions that are kept, and the calls so far -/

/-- A session was created by one of the calls. Its heartbeat is its last use, unless one of its uses
came too late; then it is too old for each use since. -/
structure Founded (calls : List SessionCall) (v : Authsession) : Prop where
  created : ∃ t₀, .create v.id v.tenant v.userlevel t₀ ∈ calls
  beat : ∃ last, (uses v.id calls).getLast? = some last ∧ (Lively (uses v.id calls) → v.heartbeat = last) ∧
    (¬ Lively (uses v.id calls) → SESSION_IDLE_TIMEOUT ≤ last - v.heartbeat)

/-- What is in the list was founded, and all that is not idle is in it. -/
structure Accords (calls : List SessionCall) (l : List (Nat × Authsession)) : Prop where
  founded : ∀ x ∈ l, Founded calls x.2
  present : ∀ id, Created id calls → Lively (uses id calls) → id ∈ l.map fun x => x.2.id

namespace Founded

theorem isCreated (h : Founded calls v) : Created v.id calls := by
  obtain ⟨t₀, hmem⟩ := h.created
  exact List.mem_map.mpr ⟨_, hmem, rfl⟩

theorem other (h : Founded calls v) (hne : c.id ≠ v.id) : Founded (calls ++ [c]) v := by
  obtain ⟨t₀, hmem⟩ := h.created
  refine ⟨⟨t₀, List.mem_append_left _ hmem⟩, ?_⟩
  rw [uses_other h.isCreated hne]
  exact h.beat

/-- A further use is in time exactly if the heartbeat says so. -/
theorem lively_iff (h : Founded calls v) (hnow : ∀ c ∈ calls, c.now ≤ now) :
    Lively (uses v.id calls ++ [now]) ↔ now - v.heartbeat < SESSION_IDLE_TIMEOUT := by
  obtain ⟨last, hlast, hlively, hidle⟩ := h.beat
  obtain ⟨c, hc, rfl⟩ := exists_of_mem_uses (List.mem_of_getLast? hlast)
  have hle := hnow c hc
  rw [lively_snoc hlast]
  by_cases hl : Lively (uses v.id calls)
  · rw [hlively hl]
    exact and_iff_right hl
  · have hlate := hidle hl
    exact iff_of_false (fun h => hl h.1) (by omega)

theorem refreshed (h : Founded calls v) (hnow : ∀ c ∈ calls, c.now ≤ now)
    (hgap : now - v.heartbeat < SESSION_IDLE_TIMEOUT) :
    Founded (calls ++ [.find v.id now]) { v with heartbeat := now } := by
  obtain ⟨t₀, hmem⟩ := h.created
  refine ⟨⟨t₀, List.mem_append_left _ hmem⟩, now, ?_⟩
  dsimp only
  rw [uses_find h.isCreated]
  exact ⟨List.getLast?_concat, fun _ => rfl, fun hno => absurd ((h.lively_iff hnow).mpr hgap) hno⟩

theorem idle (h : Founded calls v) (hnow : ∀ c ∈ calls, c.now ≤ now)
    (hgap : SESSION_IDLE_TIMEOUT ≤ now - v.heartbeat) : Founded (calls ++ [.find v.id now]) v := by
  obtain ⟨t₀, hmem⟩ := h.created
  refine ⟨⟨t₀, List.mem_append_left _ hmem⟩, now, ?_⟩
  rw [uses_find h.isCreated]
  refine ⟨List.getLast?_concat, fun hl => ?_, fun _ => hgap⟩
  exact absurd ((h.lively_iff hnow).mp hl) (not_lt.mpr hgap)

end Founded

theorem Accords.create (h : Accords calls l) (hid : ¬ Created id calls) :
    Accords (calls ++ [.create id tenant userlevel now])
      (l ++ [(a, ⟨hashUuid id, id, tenant, userlevel, now⟩)]) := by
  refine ⟨fun x hx => ?_, fun id' hc hl => ?_⟩
  · obtain hx | hx := List.mem_append.mp hx
    · have hf := h.founded x hx
      have hne : id ≠ x.2.id := fun heq => hid (heq ▸ hf.isCreated)
      exact hf.other hne
    · rw [List.mem_singleton.mp hx]
      refine ⟨⟨now, List.mem_append_right _ (List.mem_singleton_self _)⟩, now, ?_⟩
      dsimp only
      rw [uses_create hid]
      exact ⟨rfl, fun _ => rfl, fun hno => absurd (List.isChain_singleton _) hno⟩
  · rw [List.map_append, List.mem_append]
    by_cases heq : id' = id
    · exact .inr (List.mem_singleton.mpr heq)
    · obtain hc | hc := created_snoc.mp hc
      · have hne : (SessionCall.create id tenant userlevel now).id ≠ id' := Ne.symm heq
        rw [uses_other hc hne] at hl
        exact .inl (h.present id' hc hl)
      · exact absurd (Option.some.inj hc).symm heq

theorem ids_apart (hapart : ((l₁ ++ (a, v) :: l₂).map fun x => x.2.id).Nodup) {x : Nat × Authsession}
    (hx : x ∈ l₁ ++ l₂) : x ∈ l₁ ++ (a, v) :: l₂ ∧ x.2.id ≠ v.id := by
  refine ⟨((List.sublist_cons_self _ _).append_left l₁).subset hx, fun heq => ?_⟩
  rw [List.map_append, List.map_cons, List.nodup_middle, ← List.map_append] at hapart
  exact (List.nodup_cons.mp hapart).1 (heq ▸ List.mem_map_of_mem hx)

/-- A lookup finds what is in use, and keeps the others. -/
theorem Accords.find (h : Accords calls l) (hnow : ∀ c ∈ calls, c.now ≤ now)
    (hapart : (l.map fun x => x.2.id).Nodup) (hl : Authsessionlist.Lookup id now l r l') :
    (r.isSome ↔ InUse id calls now) ∧ Accords (calls ++ [.find id now]) l' := by
  have hother : ∀ x ∈ l, x.2.id ≠ id → Founded (calls ++ [.find id now]) x.2 :=
    fun x hx hne => (h.founded x hx).other (Ne.symm hne)
  have hcreated (id' : Uuid) (hc : Created id' (calls ++ [.find id now])) : Created id' calls :=
    (created_snoc.mp hc).resolve_right fun hnone => by cases hnone
  have hkept (id' : Uuid) (hne : id' ≠ id) (hc : Created id' calls)
      (hl : Lively (uses id' (calls ++ [.find id now]))) : id' ∈ l.map fun x => x.2.id := by
    have hne' : (SessionCall.find id now).id ≠ id' := Ne.symm hne
    rw [uses_other hc hne'] at hl
    exact h.present id' hc hl
  cases hl with
  | absent hno =>
    have hout : id ∉ l.map fun x => x.2.id := fun hmem => by
      obtain ⟨x, hx, hid⟩ := List.mem_map.mp hmem
      exact hno x hx hid
    have hnot : ¬ InUse id calls now := fun huse => hout (h.present id huse.1 huse.2.of_append)
    refine ⟨iff_of_false (by simp) hnot, fun x hx => hother x hx (hno x hx), fun id' hc hl => ?_⟩
    have hc' := hcreated id' hc
    by_cases heq : id' = id
    · subst heq
      rw [uses_find hc'] at hl
      exact absurd ⟨hc', hl⟩ hnot
    · exact hkept id' heq hc' hl
  | @found l₁ l₂ a v hid hgap =>
    subst hid
    have hf := h.founded (a, v) (List.mem_append_right _ List.mem_cons_self)
    refine ⟨iff_of_true rfl ⟨hf.isCreated, (hf.lively_iff hnow).mpr hgap⟩, fun x hx => ?_, fun id' hc hl => ?_⟩
    · obtain hx | hx := List.mem_cons.mp (List.perm_middle.subset hx)
      · rw [hx]
        exact hf.refreshed hnow hgap
      · obtain ⟨hmem, hne⟩ := ids_apart hapart hx
        exact hother x hmem hne
    · have hsame : (l₁ ++ (a, { v with heartbeat := now }) :: l₂).map (fun x => x.2.id) =
          (l₁ ++ (a, v) :: l₂).map fun x => x.2.id := by
        rw [List.map_append, List.map_append, List.map_cons, List.map_cons]
      rw [hsame]
      by_cases heq : id' = v.id
      · rw [heq]
        exact List.mem_map_of_mem (List.mem_append_right _ List.mem_cons_self)
      · exact hkept id' heq (hcreated id' hc) hl
  | @idle l₁ l₂ a v hid hgap =>
    subst hid
    have hf := h.founded (a, v) (List.mem_append_right _ List.mem_cons_self)
    have hnot : ¬ InUse v.id calls now := fun huse =>
      absurd ((hf.lively_iff hnow).mp huse.2) (not_lt.mpr hgap)
    refine ⟨iff_of_false (by simp) hnot, fun x hx => ?_, fun id' hc hl => ?_⟩
    · obtain hx' | hx' := List.mem_cons.mp (List.perm_middle.subset hx)
      · rw [hx']
        exact hf.idle hnow hgap
      · exact hother x hx (ids_apart hapart hx').2
    · by_cases heq : id' = v.id
      · rw [heq]
        exact List.mem_map_of_mem (List.mem_append_right _ List.mem_cons_self)
      · exact hkept id' heq (hcreated id' hc) hl
  | @expired l₁ l₂ a v hid hgap =>
    subst hid
    have hf := h.founded (a, v) (List.mem_append_right _ List.mem_cons_self)
    have hnot : ¬ InUse v.id calls now := fun huse =>
      absurd ((hf.lively_iff hnow).mp huse.2) (not_lt.mpr hgap)
    refine ⟨iff_of_false (by simp) hnot, fun x hx => ?_, fun id' hc hl => ?_⟩
    · obtain ⟨hmem, hne⟩ := ids_apart hapart hx
      exact hother x hmem hne
    · have hc' := hcreated id' hc
      by_cases heq : id' = v.id
      · subst heq
        rw [uses_find hc'] at hl
        exact absurd ⟨hc', hl⟩ hnot
      · have hmem := hkept id' heq hc' hl
        rw [List.map_append, List.map_cons] at hmem
        rw [List.map_append]
        simpa [heq] using hmem

/-! ### Histories -/

theorem SessionCall.Proper.left (h : Proper (calls ++ more)) : Proper calls := by
  refine ⟨?_, ?_⟩
  · have hfresh := h.fresh
    rw [List.filterMap_append] at hfresh
    exact hfresh.of_append_left
  · have hordered := h.ordered
    rw [List.map_append] at hordered
    exact (List.pairwise_append.mp hordered).1

theorem SessionCall.Proper.now_le (h : Proper (calls ++ [c])) : ∀ c' ∈ calls, c'.now ≤ c.now := by
  have hordered := h.ordered
  rw [List.map_append] at hordered
  intro c' hc'
  exact (List.pairwise_append.mp hordered).2.2 _ (List.mem_map_of_mem hc') _ (List.mem_singleton_self _)

theorem SessionCall.Proper.new (h : Proper (calls ++ [.create id tenant userlevel now])) : ¬ Created id calls := by
  have hfresh := h.fresh
  rw [List.filterMap_append] at hfresh
  intro hc
  obtain ⟨c, hmem, hid⟩ := List.mem_map.mp hc
  have hin : id ∈ calls.filterMap created := List.mem_filterMap.mpr ⟨c, hmem, hid⟩
  exact (List.nodup_append.mp hfresh).2.2 id hin id (List.mem_singleton_self _) rfl

/-- No history fails, and behind each of them the sessions are one chain. -/
theorem runAll_accords (h : Proper calls) : ∃ t l, runAll calls = .ok t ∧ t.Chained l ∧ Accords calls l := by
  induction calls using List.reverseRecOn with
  | nil => exact ⟨_, [], rfl, .init, (fun x hx => by cases hx), fun id hc => by cases hc⟩
  | append_singleton calls c ih =>
    obtain ⟨t, l, hrun, hchain, haccords⟩ := ih h.left
    have hsnoc : runAll (calls ++ [c]) = c.run t := by
      rw [runAll, List.foldlM_append, ← runAll, hrun, Outcome.ok_bind, List.foldlM_cons]
      exact bind_pure _
    cases c with
    | create id tenant userlevel now =>
      have hnew := h.new
      have hid : id ∉ l.map fun x => x.2.id := by
        intro hmem
        obtain ⟨x, hx, rfl⟩ := List.mem_map.mp hmem
        exact hnew (haccords.founded x hx).isCreated
      obtain ⟨t', hcreate, hchain'⟩ := hchain.create hid
      exact ⟨t', _, hsnoc.trans hcreate, hchain', haccords.create hnew⟩
    | find id now =>
      obtain ⟨r, t', l', hfind, hchain', hlookup⟩ := hchain.find id now
      refine ⟨t', l', ?_, hchain', (haccords.find h.now_le hchain.apart hlookup).2⟩
      rw [hsnoc, SessionCall.run, hfind]
      rfl

/-- The session that a lookup points to is the one it found. -/
theorem lookup_points {t : Authsessionlist} {s : Nat} (hchain : t.Chained l')
    (hl : Authsessionlist.Lookup id now l (some s) l') :
    ∃ x ∈ l, x.2.id = id ∧ ∃ node, t.read s = .ok node ∧ node.val = { x.2 with heartbeat := now } := by
  cases hl with
  | @found l₁ l₂ _ v hid hgap =>
    obtain ⟨node, hm, hv⟩ := hchain.walk.lookup (List.mem_append_right _ List.mem_cons_self)
    exact ⟨(s, v), List.mem_append_right _ List.mem_cons_self, hid, node, Authsessionlist.read_eq hm, hv⟩

theorem answer_ok (h : Proper calls) (id : Uuid) (hnow : ∀ c ∈ calls, c.now ≤ now) :
    ∃ r, answer calls id now = .ok r ∧ (r.isSome ↔ InUse id calls now) ∧
      ∀ v, r = some v → ∃ t₀, .create id v.tenant v.userlevel t₀ ∈ calls := by
  obtain ⟨t, l, hrun, hchain, haccords⟩ := runAll_accords h
  obtain ⟨r, t', l', hfind, hchain', hlookup⟩ := hchain.find id now
  have hin := (haccords.find hnow hchain.apart hlookup).1
  rw [answer, hrun, Outcome.ok_bind, hfind, Outcome.ok_bind]
  cases r with
  | none => exact ⟨none, rfl, hin, fun v hv => by cases hv⟩
  | some s =>
    obtain ⟨x, hx, rfl, node, hread, hval⟩ := lookup_points hchain' hlookup
    dsimp only
    rw [hread]
    refine ⟨some node.val, rfl, hin, fun v hv => ?_⟩
    obtain rfl := Option.some.inj hv
    rw [hval]
    exact (haccords.founded x hx).created

/-- What the filters get to know of the sessions. -/
def sessionTokens (calls : List SessionCall) (now : ℤ) (id : Uuid) : Option (AuthLevel × Uuid) :=
  match answer calls id now with
  | .ok (some s) => some (s.userlevel, s.tenant)
  | _ => none

/-- A request with the token of a session in use gets the level and the tenant of the login. -/
theorem fltCheckValiduser_session {T : Tokens} {ctx : ReqContext} (h : Proper calls)
    (hnow : ∀ c ∈ calls, c.now ≤ now) (hT : T.authsessionFind = sessionTokens calls now)
    (hvalid : uuidvalid ctx.opticon_token) (huse : InUse ctx.opticon_token calls now) :
    ∃ tenant userlevel t₀, .create ctx.opticon_token tenant userlevel t₀ ∈ calls ∧
      fltCheckValiduser T ctx = .ok { ctx with userlevel, auth_tenants := [tenant] } := by
  obtain ⟨r, hanswer, hin, hgiven⟩ := answer_ok h ctx.opticon_token hnow
  obtain ⟨s, rfl⟩ := Option.isSome_iff_exists.mp (hin.mpr huse)
  obtain ⟨t₀, hmem⟩ := hgiven s rfl
  have hfind : T.authsessionFind ctx.opticon_token = some (s.userlevel, s.tenant) := by
    rw [hT, sessionTokens, hanswer]
  refine ⟨s.tenant, s.userlevel, t₀, hmem, ?_⟩
  rw [fltCheckValiduser, if_pos hvalid, hfind]

/-- Behind every history of logins and lookups, a lookup gives a session exactly if it is in use, and
that with the tenant and the level it was created with; once it gave none for a session that was
created, it always does; and the sessions are one chain. -/
theorem session_found_iff (h : Proper calls) (id : Uuid) (hnow : ∀ c ∈ calls, c.now ≤ now) :
    (∃ r, answer calls id now = .ok r ∧ (r.isSome ↔ InUse id calls now) ∧
      (∀ v, r = some v → ∃ t₀, .create id v.tenant v.userlevel t₀ ∈ calls) ∧
      ∀ before now₀ after, calls = before ++ .find id now₀ :: after → Created id before →
        answer before id now₀ = .ok none → r = none) ∧
      ∃ t l, runAll calls = .ok t ∧ t.Chained l := by
  obtain ⟨t, l, hrun, hchain, -⟩ := runAll_accords h
  obtain ⟨r, hanswer, hin, hgiven⟩ := answer_ok h id hnow
  refine ⟨⟨r, hanswer, hin, hgiven, ?_⟩, t, l, hrun, hchain⟩
  rintro before now₀ after rfl hc hnone
  have hsplit : before ++ .find id now₀ :: after = before ++ [.find id now₀] ++ after := List.append_cons _ _ _
  have hbefore : Proper (before ++ [.find id now₀]) := by
    rw [hsplit] at h
    exact h.left
  obtain ⟨r₀, hanswer₀, hin₀, -⟩ := answer_ok hbefore.left id hbefore.now_le
  obtain rfl := Except.ok.inj (hanswer₀.symm.trans hnone)
  rw [← Option.not_isSome_iff_eq_none, hin]
  -- the use that came too late is still one of the uses
  rintro ⟨-, hl⟩
  rw [hsplit, uses_append (hc.append _), uses_find hc, List.append_assoc] at hl
  exact Bool.false_ne_true (hin₀.mpr ⟨hc, hl.of_append⟩)

/-- A session that is asked for after 500 and after 1000 seconds, and once more too late. -/
def lateCalls : List SessionCall :=
  [.create ⟨0, 1⟩ ⟨0, 7⟩ .user 0, .create ⟨0, 2⟩ ⟨0, 7⟩ .admin 10, .find ⟨0, 1⟩ 500, .find ⟨0, 1⟩ 1000,
    .find ⟨0, 1⟩ 1600]

theorem lateCalls_proper : Proper lateCalls := ⟨by decide, by decide⟩

theorem session_found_late : (∃ r, answer lateCalls ⟨0, 1⟩ 1700 = .ok r ∧ (r.isSome ↔ InUse ⟨0, 1⟩ lateCalls 1700) ∧
      (∀ v, r = some v → ∃ t₀, .create ⟨0, 1⟩ v.tenant v.userlevel t₀ ∈ lateCalls) ∧
      ∀ before now₀ after, lateCalls = before ++ .find ⟨0, 1⟩ now₀ :: after → Created ⟨0, 1⟩ before →
        answer before ⟨0, 1⟩ now₀ = .ok none → r = none) ∧
    ∃ t l, runAll lateCalls = .ok t ∧ t.Chained l :=
  session_found_iff lateCalls_proper ⟨0, 1⟩ (by decide)

end Opticon
