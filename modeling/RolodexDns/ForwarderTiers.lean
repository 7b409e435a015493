import Mathlib.Data.List.Dedup
import RolodexDns.ServerOperations

/-! The tiers of forwarders and their circuit breakers. Both go by a forwarder's label, which names the address that is
dialed only for plaintext, and never the path: of two endpoints with one label only the first is placed in a tier, and
either is taken to be down when the other is. -/
namespace RolodexDns.ForwarderTiers
open DnsRecords StoredRecords ServerOperations List

section

structure Endpoint where
  transport : Transport
  addr : SocketAddr
  hostname : Option Text
  path : Option Text
deriving DecidableEq

inductive Preference where
  | encrypted
  | plaintextPrivate
  | plaintextPublic
deriving DecidableEq

def isEncrypted (transport : Transport) : Bool := transport∉[Transport.do53Udp,.do53Tcp]

def scheme : Transport → Text
  | .do53Udp => "udp"
  | .do53Tcp => "tcp"
  | .dot => "tls"
  | .doh => "https"
  | .doq => "quic"

def isPrivate : IpAddr → Bool
  | .v4 ip =>
    ip.extractLsb' 24 8=10 || ip.extractLsb' 20 12=0xac1 || ip.extractLsb' 16 16=0xc0a8 || ip.extractLsb' 24 8=127 ||
      ip.extractLsb' 16 16=0xa9fe
  | .v6 ip => ip=1 || ip.extractLsb' 112 16 &&& 0xfe00=0xfc00 || ip.extractLsb' 112 16 &&& 0xffc0=0xfe80

def preference (f : Endpoint) : Preference :=
  if isEncrypted f.transport then .encrypted
  else if isPrivate f.addr.ip then .plaintextPrivate
  else .plaintextPublic

variable (addrText : SocketAddr → Text)

def label (f : Endpoint) : Text :=
  if f.transport=.do53Udp then addrText f.addr
  else scheme f.transport ++ "://"++f.hostname.getD (addrText f.addr)

/-- A forwarder is put at the end of its tier, unless its label was seen. -/
def place (placed : List Text × (Preference → List Endpoint)) (f : Endpoint) :
    List Text × (Preference → List Endpoint) :=
  if label addrText f∈placed.1 then placed
  else (label addrText f::placed.1,Function.update placed.2 (preference f) (placed.2 (preference f)++[f]))

def byPreference (forwarders : List Endpoint) : Preference → List Endpoint :=
  (forwarders.foldl (place addrText) ([],fun _ => [])).2

structure InService where
  endpoint : Endpoint
  health : Nat

/-- A new forwarder has the breaker of the first one in service with its label, or one of its own. -/
def carryHealth (existing : List InService) (incoming : List Endpoint) : List (Endpoint × Option Nat) :=
  incoming.map fun f => (f,(existing.find? fun e => label addrText e.endpoint=label addrText f).map InService.health)

end

section
variable {addrText : SocketAddr → Text} {forwarders : List Endpoint}

abbrev Apart (addrText : SocketAddr → Text) (f g : Endpoint) : Prop := label addrText f≠label addrText g

def firsts (addrText : SocketAddr → Text) (forwarders : List Endpoint) : List Endpoint :=
  (forwarders.reverse.pwFilter (Apart addrText)).reverse

theorem exists_mem_firsts {f : Endpoint} (hf : f∈forwarders) :
    ∃ g∈firsts addrText forwarders,label addrText f=label addrText g := by
  by_contra hn
  push Not at hn
  have ht {f g h : Endpoint} (hne : Apart addrText f h) : Apart addrText f g ∨ Apart addrText g h := by
    by_contra hb
    push Not at hb
    exact hne (hb.1.trans hb.2)
  have ha := (@forall_mem_pwFilter _ (Apart addrText) _ ht f forwarders.reverse).mp fun g hg =>
    hn g (mem_reverse.mpr hg)
  exact ha f (mem_reverse.mpr hf) rfl

theorem firsts_sublist : firsts addrText forwarders <+ forwarders := by
  have h := (@pwFilter_sublist _ (Apart addrText) _ forwarders.reverse).reverse
  rwa [reverse_reverse] at h

theorem nodup_firsts : ((firsts addrText forwarders).map (label addrText)).Nodup := by
  rw [firsts,map_reverse,nodup_reverse]
  exact pairwise_map.mpr (pairwise_pwFilter _)

/-- What the loop keeps: the labels that it has seen, and the first forwarder of each in its tier. -/
theorem foldl_place (forwarders : List Endpoint) :
    (∀ l,l∈(forwarders.foldl (place addrText) ([],fun _ => [])).1 ↔ ∃ f∈firsts addrText forwarders,l=label addrText f) ∧
      ∀ p,byPreference addrText forwarders p=(firsts addrText forwarders).filter (preference · = p) := by
  induction forwarders using reverseRecOn with
  | nil => simp [firsts,byPreference]
  | append_singleton forwarders f ih =>
    obtain ⟨hs,ht⟩ := ih
    unfold byPreference at ht ⊢
    rw [foldl_append,foldl_cons,foldl_nil]
    have hf : firsts addrText (forwarders++[f]) =
        firsts addrText forwarders++if ∀ g∈firsts addrText forwarders,Apart addrText f g then [f] else [] := by
      simp only [firsts,reverse_append,reverse_singleton,singleton_append,mem_reverse]
      split_ifs with hn
      · rw [pwFilter_cons_of_pos hn,reverse_cons]
      · rw [pwFilter_cons_of_neg hn,append_nil]
    rw [hf,place]
    by_cases hn : ∀ g∈firsts addrText forwarders,Apart addrText f g
    · rw [if_neg fun h => ?_,if_pos hn]
      · refine ⟨fun l => by simp [hs,or_comm],fun p => ?_⟩
        by_cases hp : preference f=p
        · subst hp
          simp [ht]
        · simp [hp,Ne.symm hp,ht]
      · obtain ⟨g,hg,hl⟩ := (hs _).mp h
        exact hn g hg hl
    · rw [if_pos ((hs _).mpr (by simpa using hn)),if_neg hn,append_nil]
      exact ⟨hs,ht⟩

end

section
variable (addrText : SocketAddr → Text) (forwarders incoming : List Endpoint) (existing : List InService)

/-- Every endpoint is placed once, in the tier of its preference and in order, and a forwarder shares the
breaker of one in service only if they are the same endpoint. -/
structure LosesNothing : Prop where
  placed : ∀ f∈forwarders,∀ p,(byPreference addrText forwarders p).count f=if preference f=p then 1 else 0
  ordered : ∀ p,byPreference addrText forwarders p <+ forwarders
  carried : ∀ f health,(f,some health)∈carryHealth addrText existing incoming →
    ∀ e∈existing,e.health=health → e.endpoint=f

/-- Nothing is lost exactly if labels tell endpoints apart: among the forwarders, and where a new one meets the first in
service with its label, and those that share its breaker. -/
theorem loses_nothing_iff : LosesNothing addrText forwarders incoming existing ↔
    (∀ f∈forwarders,∀ g∈forwarders,label addrText f=label addrText g → f=g) ∧
    ∀ f∈incoming,∀ front first rest,existing=front++first::rest → label addrText first.endpoint=label addrText f →
      (∀ e∈front,label addrText e.endpoint≠label addrText f) → ∀ e∈existing,e.health=first.health → e.endpoint=f := by
  have ht := (@foldl_place addrText forwarders).2
  constructor
  · intro h
    have hpl {f : Endpoint} (hf : f∈forwarders) : f∈firsts addrText forwarders := by
      have hc := h.placed f hf (preference f)
      rw [if_pos rfl,ht] at hc
      exact mem_of_mem_filter (count_pos_iff.mp (hc ▸ Nat.one_pos))
    refine ⟨fun f hf g hg => inj_on_of_nodup_map nodup_firsts (hpl hf) (hpl hg),?_⟩
    intro f hf front first rest hei hfi hfr e he hh
    refine h.carried f first.health (mem_map.mpr ⟨f,hf,?_⟩) e he hh
    have hfn : (existing.find? fun e => label addrText e.endpoint=label addrText f)=some first :=
      find?_eq_some_iff_append.mpr ⟨decide_eq_true hfi,front,rest,hei,by simpa using hfr⟩
    rw [hfn]
    rfl
  · rintro ⟨hla,hfi⟩
    refine ⟨fun f hf p => ?_,fun p => ?_,fun f health hm e he hh => ?_⟩
    · obtain ⟨g,hg,hl⟩ := exists_mem_firsts hf
      obtain rfl := hla f hf g (firsts_sublist.subset hg) hl
      rw [ht]
      split_ifs with hp
      · rw [count_filter (by simpa using hp),count_eq_one_of_mem (nodup_firsts.of_map _) hg]
      · exact count_eq_zero.mpr fun hm => hp (of_decide_eq_true (mem_filter.mp hm).2)
    · rw [ht]
      exact filter_sublist.trans firsts_sublist
    · obtain ⟨f',hf',heq⟩ := mem_map.mp hm
      obtain ⟨rfl,hs⟩ := Prod.mk.inj heq
      obtain ⟨first,hfn,rfl⟩ := Option.map_eq_some_iff.mp hs
      obtain ⟨hl,front,rest,hei,hfr⟩ := find?_eq_some_iff_append.mp hfn
      exact hfi f' hf' front first rest hei (of_decide_eq_true hl) (by simpa using hfr) e he hh

def google (ip : BitVec 32) : Endpoint := ⟨.dot,⟨.v4 ip,853⟩,some "dns.google",none⟩

/-- The second address of the resolver is in no tier, and down when the first one is. -/
theorem second_address_lost :
    byPreference (fun _ => []) [google 0x08080808,google 0x08080404] .encrypted=[google 0x08080808] ∧
      carryHealth (fun _ => []) [⟨google 0x08080808,0⟩] [google 0x08080404]=[(google 0x08080404,some 0)] ∧
      ¬ LosesNothing (fun _ => []) [google 0x08080808,google 0x08080404] [] [] :=
  ⟨by decide,by decide,fun h => absurd (h.placed (google 0x08080404) (by decide) .encrypted) (by decide)⟩

end

end RolodexDns.ForwarderTiers
