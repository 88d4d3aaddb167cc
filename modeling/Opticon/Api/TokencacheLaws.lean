import Opticon.Api.Tokencache
import Opticon.Lib.Transition

/-! Whether the cache answers with what was stored last. -/

namespace Opticon

open Tokencache

inductive CacheStep where
  | lookup (token : List UInt8) (tnow texpire : Nat)
  | expire (tnow : Nat)
  | storeInvalid (token : List UInt8) (tnow rand : Nat)
  | storeValid (token : List UInt8) (tenantlist : List Uuid) (userlevel : AuthLevel)
      (tnow rand : Nat)

namespace CacheStep

def apply (ihash : BitVec 32) (self : Tokencache) : CacheStep → Tokencache
  | .lookup token tnow texpire => (tokencacheLookup ihash self token tnow texpire).1
  | .expire tnow => tokencacheExpire self tnow
  | .storeInvalid token tnow rand => tokencacheStoreInvalid ihash self token tnow rand
  | .storeValid token tenantlist userlevel tnow rand =>
    tokencacheStoreValid ihash self token tenantlist userlevel tnow rand

/-- The clock at the first and at the last reading. -/
def clock : CacheStep → Nat × Nat
  | .lookup _ tnow texpire => (tnow, texpire)
  | .expire tnow => (tnow, tnow)
  | .storeInvalid _ tnow _ => (tnow, tnow)
  | .storeValid _ _ _ tnow _ => (tnow, tnow)

/-- The token of a step fits a node with the zero at its end. -/
def Fits : CacheStep → Prop
  | .lookup token _ _ => token.length < 1024
  | .expire _ => True
  | .storeInvalid token _ _ => token.length < 1024
  | .storeValid token _ _ _ _ => token.length < 1024

end CacheStep

/-- Steps of any requests, at times that do not decrease. The second part of a state is
the clock. -/
def caching (ihash : BitVec 32) : Transition (Tokencache × Nat) CacheStep where
  init s := s.1 = tokencacheInit s.2
  step s e s' := e.Fits ∧ s.2 ≤ e.clock.1 ∧ e.clock.1 ≤ e.clock.2 ∧
    s' = (e.apply ihash s.1, e.clock.2)

/-- What was stored for a token, where nothing stands for an invalid one. -/
structure Stored where
  result : Option (List Uuid × AuthLevel)
  time : Nat

def Stored.tenantlist (st : Stored) : List Uuid := (st.result.map Prod.fst).getD []
def Stored.userlevel (st : Stored) : AuthLevel := (st.result.map Prod.snd).getD .guest

def Stored.timeout (st : Stored) : Nat :=
  if st.result.isSome then TOKEN_TIMEOUT_VALID else TOKEN_TIMEOUT_INVALID

def CacheStep.stored (token : List UInt8) : CacheStep → Option Stored
  | .lookup _ _ _ => none
  | .expire _ => none
  | .storeInvalid token' tnow _ => if token' = token then some ⟨none, tnow⟩ else none
  | .storeValid token' tenantlist userlevel tnow _ =>
    if token' = token then some ⟨some (tenantlist, userlevel), tnow⟩ else none

/-- The most recent store for a token in a run. -/
def lastStore (token : List UInt8) (ls : List CacheStep) : Option Stored :=
  ls.reverse.findSome? (CacheStep.stored token)

/-- A lookup that returns an entry returns what was stored last, and that not too long ago. -/
def LookupCurrent (ihash : BitVec 32) (ls : List CacheStep) (s : Tokencache × Nat) : Prop :=
  ∀ token tnow texpire node, token.length < 1024 → s.2 ≤ tnow →
    (tokencacheLookup ihash s.1 token tnow texpire).2 = some node →
    ∃ st, lastStore token ls = some st ∧ node.tenantlist = st.tenantlist ∧
      node.userlevel = st.userlevel ∧ tnow < st.time + st.timeout

/-- A valid token is stored only where no other positive node answers for it differently. -/
def Agreeing (ihash : BitVec 32) (s : Tokencache × Nat) : CacheStep → Prop
  | .storeValid token tenantlist userlevel tnow rand =>
    ∀ i node, i ≠ s.1.into tnow rand → s.1.nodes[i]? = some node → hit ihash token node = true →
      tnow < node.ctime + TOKEN_TIMEOUT_VALID →
      node.tenantlist = tenantlist ∧ node.userlevel = userlevel
  | _ => True

variable {ihash : BitVec 32} {ls : List CacheStep} {e : CacheStep} {s s' : Tokencache × Nat}
  {cache : Tokencache} {token : List UInt8} {node : TcacheNode} {clock tnow texpire rand : Nat}

theorem lastStore_snoc : lastStore token (ls ++ [e]) = (e.stored token).or (lastStore token ls) := by
  simp only [lastStore, List.reverse_append, List.reverse_singleton, List.singleton_append,
    List.findSome?_cons]
  cases e.stored token <;> rfl

structure Stored.Answers (st : Stored) (timeout : Nat) (node : TcacheNode) : Prop where
  tenantlist : node.tenantlist = st.tenantlist
  userlevel : node.userlevel = st.userlevel
  timeout : st.timeout = timeout
  time : node.ctime ≤ st.time

/-- A node has the hash of its token and, unless it expired, the answer that was stored
last for this token. It is not younger than that store. -/
structure Backed (ihash : BitVec 32) (ls : List CacheStep) (clock timeout : Nat)
    (node : TcacheNode) : Prop where
  hashcode : node.hashcode = hashToken ihash node.token
  past : node.ctime ≤ clock
  last : clock < node.ctime + timeout →
    ∃ st, lastStore node.token ls = some st ∧ st.Answers timeout node

def AllBacked (ihash : BitVec 32) (ls : List CacheStep) (clock timeout : Nat)
    (nodes : List TcacheNode) : Prop :=
  ∀ node ∈ nodes, node.hashcode ≠ 0 → Backed ihash ls clock timeout node

variable {timeout clock' : Nat} {nodes : List TcacheNode}

theorem hit_iff : hit ihash token node = true ↔
    node.hashcode = hashToken ihash token ∧ node.token = token := by
  simp [hit]

theorem hashcode_ne_zero_of_hit (h : hit ihash token node = true) : node.hashcode ≠ 0 := by
  rw [(hit_iff.mp h).1]
  exact hashToken_ne_zero ihash token

theorem Backed.step (h : Backed ihash ls clock timeout node) (hc : clock ≤ clock')
    (he : ∀ st, e.stored node.token = some st → clock' < node.ctime + timeout →
      st.Answers timeout node) : Backed ihash (ls ++ [e]) clock' timeout node := by
  refine ⟨h.hashcode, h.past.trans hc, ?_⟩
  intro hfresh
  rw [lastStore_snoc]
  cases hst : e.stored node.token with
  | none => exact h.last (hc.trans_lt hfresh)
  | some st => exact ⟨st, rfl, he st hst hfresh⟩

theorem AllBacked.step (h : AllBacked ihash ls clock timeout nodes) (hc : clock ≤ clock')
    (he : ∀ node ∈ nodes, node.hashcode ≠ 0 → ∀ st, e.stored node.token = some st →
      clock' < node.ctime + timeout → st.Answers timeout node) :
    AllBacked ihash (ls ++ [e]) clock' timeout nodes := by
  intro node hmem hne
  exact (h node hmem hne).step hc (he node hmem hne)

theorem mem_map_clearIf {p : TcacheNode → Bool} (h : node ∈ nodes.map (clearIf p))
    (hne : node.hashcode ≠ 0) : node ∈ nodes ∧ p node = false := by
  obtain ⟨node', hmem, rfl⟩ := List.mem_map.mp h
  unfold clearIf at hne ⊢
  split at hne
  · exact absurd rfl hne
  · rename_i hp
    rw [if_neg hp]
    exact ⟨hmem, by simpa using hp⟩

theorem AllBacked.clearIf (h : AllBacked ihash ls clock timeout nodes) (p : TcacheNode → Bool) :
    AllBacked ihash ls clock timeout (nodes.map (clearIf p)) := by
  intro node hmem hne
  exact h node (mem_map_clearIf hmem hne).1 hne

theorem AllBacked.lastref (h : AllBacked ihash ls clock timeout nodes) (p : TcacheNode → Bool)
    (tnow : Nat) : AllBacked ihash ls clock timeout
      (updateFirst p (fun crsr => { crsr with lastref := tnow }) nodes) := by
  intro node hmem hne
  obtain hmem | ⟨crsr, hfind, rfl⟩ := mem_updateFirst hmem
  · exact h node hmem hne
  · have hb := h crsr (List.mem_of_find?_eq_some hfind) hne
    refine ⟨hb.hashcode, hb.past, ?_⟩
    intro hfresh
    obtain ⟨st, hlast, hst⟩ := hb.last hfresh
    exact ⟨st, hlast, hst.tenantlist, hst.userlevel, hst.timeout, hst.time⟩

theorem AllBacked.clearFirst (h : AllBacked ihash ls clock timeout nodes)
    (p : TcacheNode → Bool) : AllBacked ihash ls clock timeout
      (updateFirst p (fun _ => tcacheNodeClear) nodes) := by
  intro node hmem hne
  obtain hmem | ⟨crsr, -, rfl⟩ := mem_updateFirst hmem
  · exact h node hmem hne
  · exact absurd rfl hne

/-- Both halves of the cache are backed. -/
structure Current (ihash : BitVec 32) (ls : List CacheStep) (cache : Tokencache) (clock : Nat) :
    Prop where
  nodes : AllBacked ihash ls clock TOKEN_TIMEOUT_VALID cache.nodes
  invalids : AllBacked ihash ls clock TOKEN_TIMEOUT_INVALID cache.invalids

theorem Current.init : Current ihash [] (tokencacheInit clock) clock := by
  refine ⟨fun _ h => absurd h List.not_mem_nil, ?_⟩
  intro node hmem hne
  rw [List.eq_of_mem_replicate hmem] at hne
  exact absurd rfl hne

theorem Current.expire (h : Current ihash ls cache clock) :
    Current ihash ls (tokencacheExpire cache tnow) clock := by
  unfold tokencacheExpire
  split
  · exact h
  · exact ⟨h.nodes.clearIf _, h.invalids.clearIf _⟩

theorem Current.lookup (h : Current ihash ls cache clock) :
    Current ihash ls (tokencacheLookup ihash cache token tnow texpire).1 clock := by
  unfold tokencacheLookup
  split
  · exact Current.expire ⟨h.nodes, h.invalids.lastref _ _⟩
  · split
    · exact h
    · split
      · exact Current.expire ⟨h.nodes.lastref _ _, h.invalids⟩
      · exact ⟨h.nodes.clearFirst _, h.invalids⟩

/-- A step that stores nothing leaves what was backed. -/
theorem Current.step (h : Current ihash ls cache clock) (hc : clock ≤ clock')
    (he : ∀ token, e.stored token = none) : Current ihash (ls ++ [e]) cache clock' := by
  have hno : ∀ {timeout : Nat} (node : TcacheNode), ∀ st, e.stored node.token = some st →
      clock' < node.ctime + timeout → st.Answers timeout node := by
    intro timeout node st hst
    rw [he] at hst
    cases hst
  exact ⟨h.nodes.step hc fun node _ _ => hno node, h.invalids.step hc fun node _ _ => hno node⟩

/-- What is left when all nodes under the hash of a token are cleared is not touched by a
store for this token. -/
theorem AllBacked.clearToken (h : AllBacked ihash ls clock timeout nodes) (hc : clock ≤ clock')
    (he : ∀ token', token' ≠ token → e.stored token' = none) :
    AllBacked ihash (ls ++ [e]) clock' timeout
      (nodes.map (Tokencache.clearIf fun crsr => crsr.hashcode == hashToken ihash token)) := by
  intro node hmem hne
  obtain ⟨hmem, hp⟩ := mem_map_clearIf hmem hne
  have hb := h node hmem hne
  apply hb.step hc
  intro st hst
  rw [he] at hst
  · cases hst
  · rintro rfl
    simp [hb.hashcode] at hp

theorem AllBacked.set (h : AllBacked ihash ls clock timeout nodes) (hc : clock ≤ clock') (i : Nat)
    (hnode : Backed ihash (ls ++ [e]) clock' timeout node)
    (he : ∀ j crsr, j ≠ i → nodes[j]? = some crsr → crsr.hashcode ≠ 0 →
      ∀ st, e.stored crsr.token = some st → clock' < crsr.ctime + timeout →
        st.Answers timeout crsr) :
    AllBacked ihash (ls ++ [e]) clock' timeout (nodes.set i node) := by
  intro crsr hmem hne
  obtain ⟨j, hj⟩ := List.mem_iff_getElem?.mp hmem
  rw [List.getElem?_set] at hj
  split at hj
  · split at hj <;> cases hj
    exact hnode
  · rename_i hij
    exact (h crsr (List.mem_of_getElem? hj) hne).step hc (he j crsr (Ne.symm hij) hj hne)

theorem Backed.stored (st : Stored) (hfit : token.length < 1024) (hst : e.stored token = some st)
    (htime : st.time = tnow) (hto : st.timeout = timeout) : Backed ihash (ls ++ [e]) tnow timeout
      ⟨token.take 1023, hashToken ihash token, tnow, tnow, st.tenantlist, st.userlevel⟩ := by
  rw [List.take_of_length_le (by omega)]
  refine ⟨rfl, le_rfl, fun _ => ⟨st, ?_, rfl, rfl, hto, htime.ge⟩⟩
  rw [lastStore_snoc, hst]
  rfl

theorem Current.storeInvalid (h : Current ihash ls cache clock) (hc : clock ≤ tnow)
    (hfit : token.length < 1024) : Current ihash (ls ++ [.storeInvalid token tnow rand])
      (tokencacheStoreInvalid ihash cache token tnow rand) tnow := by
  constructor
  · apply h.nodes.clearToken hc
    intro token' hne
    exact if_neg (Ne.symm hne)
  · apply h.invalids.set hc
    · exact Backed.stored ⟨none, tnow⟩ hfit (if_pos rfl) rfl rfl
    · intro j crsr _ hcrsr hne st hst hfresh
      have hb := h.invalids crsr (List.mem_of_getElem? hcrsr) hne
      obtain ⟨-, ⟨⟩⟩ := Option.ite_none_right_eq_some.mp hst
      obtain ⟨st', -, hst'⟩ := hb.last (hc.trans_lt hfresh)
      have hnone : st'.result = none := by
        have htimeout := hst'.timeout
        unfold Stored.timeout at htimeout
        split at htimeout
        · cases htimeout
        · rename_i hsome
          simpa using hsome
      refine ⟨?_, ?_, rfl, hb.past.trans hc⟩
      · simp [hst'.tenantlist, Stored.tenantlist, hnone]
      · simp [hst'.userlevel, Stored.userlevel, hnone]

theorem Current.storeValid {tenantlist : List Uuid} {userlevel : AuthLevel}
    (h : Current ihash ls cache clock) (hc : clock ≤ tnow) (hfit : token.length < 1024)
    (hagree : Agreeing ihash (cache, clock) (.storeValid token tenantlist userlevel tnow rand)) :
    Current ihash (ls ++ [.storeValid token tenantlist userlevel tnow rand])
      (tokencacheStoreValid ihash cache token tenantlist userlevel tnow rand) tnow := by
  constructor
  · have hnodes : AllBacked ihash ls clock TOKEN_TIMEOUT_VALID
        (if cache.nodes.length < 256 then cache.nodes ++ [tcacheNodeClear] else cache.nodes) := by
      split
      · intro node hmem hne
        obtain hmem | hmem := List.mem_append.mp hmem
        · exact h.nodes node hmem hne
        · rw [List.mem_singleton.mp hmem] at hne
          exact absurd rfl hne
      · exact h.nodes
    apply hnodes.set hc
    · exact Backed.stored ⟨some (tenantlist, userlevel), tnow⟩ hfit (if_pos rfl) rfl rfl
    · intro j crsr hj hcrsr hne st hst hfresh
      have hb := hnodes crsr (List.mem_of_getElem? hcrsr) hne
      obtain ⟨htoken, ⟨⟩⟩ := Option.ite_none_right_eq_some.mp hst
      have hold : cache.nodes[j]? = some crsr := by
        split at hcrsr
        · rw [List.getElem?_append] at hcrsr
          split at hcrsr
          · exact hcrsr
          · rw [List.mem_singleton.mp (List.mem_of_getElem? hcrsr)] at hne
            exact absurd rfl hne
        · exact hcrsr
      have hhit : hit ihash token crsr = true := hit_iff.mpr ⟨htoken ▸ hb.hashcode, htoken.symm⟩
      obtain ⟨htenantlist, huserlevel⟩ := hagree j crsr hj hold hhit hfresh
      exact ⟨htenantlist, huserlevel, rfl, hb.past.trans hc⟩
  · apply h.invalids.clearToken hc
    intro token' hne
    exact if_neg (Ne.symm hne)

theorem Current.of_history (h : ((caching ihash).guard (Agreeing ihash)).History ls s) :
    Current ihash ls s.1 s.2 := by
  apply h.induction (I := fun ls s => Current ihash ls s.1 s.2)
  · intro s hinit
    rw [hinit]
    exact Current.init
  · rintro ls ⟨cache, clock⟩ e s' ih ⟨hagree, hfit, hc, hc', rfl⟩
    cases e with
    | lookup token tnow texpire => exact ih.lookup.step (hc.trans hc') fun _ => rfl
    | expire tnow => exact ih.expire.step hc fun _ => rfl
    | storeInvalid token tnow rand => exact ih.storeInvalid hc hfit
    | storeValid token tenantlist userlevel tnow rand => exact ih.storeValid hc hfit hagree

/-- An answer is that of an unexpired node. -/
theorem tokencacheLookup_eq_some {crsr : TcacheNode}
    (h : (tokencacheLookup ihash cache token tnow texpire).2 = some crsr) :
    ∃ timeout node, (timeout = TOKEN_TIMEOUT_INVALID ∧ node ∈ cache.invalids ∨
        timeout = TOKEN_TIMEOUT_VALID ∧ node ∈ cache.nodes) ∧
      hit ihash token node = true ∧ tnow < node.ctime + timeout ∧
      crsr = { node with lastref := tnow } := by
  unfold tokencacheLookup at h
  split at h
  · rename_i node hfilter
    obtain ⟨hfind, hfresh⟩ := Option.filter_eq_some_iff.mp hfilter
    cases h
    exact ⟨_, node, .inl ⟨rfl, List.mem_of_find?_eq_some hfind⟩, List.find?_some hfind,
      by simpa using hfresh, rfl⟩
  · split at h
    · cases h
    · rename_i node hfind
      split at h <;> cases h
      exact ⟨_, node, .inr ⟨rfl, List.mem_of_find?_eq_some hfind⟩, List.find?_some hfind,
        ‹_›, rfl⟩

/-- Where each valid token that is stored agrees with what is cached for it, the cache
answers with what was stored last. -/
theorem lookup_current (h : ((caching ihash).guard (Agreeing ihash)).History ls s) :
    LookupCurrent ihash ls s := by
  intro token tnow texpire node hfit hclock hnode
  have hcurrent := Current.of_history h
  obtain ⟨timeout, node, hmem, hhit, hfresh, rfl⟩ := tokencacheLookup_eq_some hnode
  have hb : Backed ihash ls s.2 timeout node := by
    obtain ⟨rfl, hmem⟩ | ⟨rfl, hmem⟩ := hmem
    · exact hcurrent.invalids node hmem (hashcode_ne_zero_of_hit hhit)
    · exact hcurrent.nodes node hmem (hashcode_ne_zero_of_hit hhit)
  obtain ⟨st, hlast, hst⟩ := hb.last (hclock.trans_lt hfresh)
  rw [(hit_iff.mp hhit).2] at hlast
  refine ⟨st, hlast, hst.tenantlist, hst.userlevel, ?_⟩
  rw [hst.timeout]
  exact hfresh.trans_le (Nat.add_le_add_right hst.time timeout)

/-- A token that is looked up after it was stored as valid. -/
def tokenA : List UInt8 := [97]

def storedOnce : Tokencache := tokencacheStoreValid 5138 (tokencacheInit 100) tokenA [] .admin 100 0

theorem lookup_current_storedOnce :
    LookupCurrent 5138 [.storeValid tokenA [] .admin 100 0] (storedOnce, 100) := by
  apply lookup_current
  have hstart : ((caching 5138).guard (Agreeing 5138)).History [] (tokencacheInit 100, 100) :=
    Transition.History.init rfl
  apply hstart.step
  refine ⟨?_, Nat.le_of_ble_eq_true rfl, le_rfl, le_rfl, rfl⟩
  intro i node _ hnode
  cases hnode

/-- The roles behind a token change while two requests ask for it: the second store does
not drop the first, and the first is found. -/
theorem lookup_not_current : ¬ ∀ ihash ls s, (caching ihash).History ls s →
    LookupCurrent ihash ls s := by
  intro hall
  have hfit : tokenA.length < 1024 := by decide
  have hfirst : (caching 5138).History [.storeValid tokenA [] .admin 100 0] (storedOnce, 100) := by
    have hstart : (caching 5138).History [] (tokencacheInit 100, 100) :=
      Transition.History.init rfl
    exact hstart.step ⟨hfit, le_rfl, le_rfl, rfl⟩
  have hsecond : (caching 5138).step (storedOnce, 100) (.storeValid tokenA [] .user 101 0)
      (tokencacheStoreValid 5138 storedOnce tokenA [] .user 101 0, 101) :=
    ⟨hfit, Nat.le_succ 100, le_rfl, rfl⟩
  obtain ⟨st, hlast, -, huserlevel, -⟩ := hall _ _ _ (hfirst.step hsecond) tokenA 102 102
    ⟨tokenA, hashToken 5138 tokenA, 102, 100, [], .admin⟩ hfit (Nat.le_succ 101)
    (by decide)
  cases hlast
  cases huserlevel

end Opticon
