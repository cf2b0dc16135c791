import XmppProxy.Model.Srv

/-! What `sort_dedup` makes of the connections that were found. Its first comparison looks at the key of
a connection and then at what is preferred; the last step of it compares a weight with a priority, so
that it orders nothing but connections whose weight is their priority. -/

namespace XmppProxy

open Lib
open Std (TransCmp ReflOrd)

/-- What the `http` crate promises: equality of URIs is an equivalence that their text refines. -/
class LawfulHttpUri (Uri : Type) [HttpUri Uri] : Prop extends EquivBEq Uri where
  beq_of_toStr : ∀ {u v : Uri}, HttpUri.toStr u = HttpUri.toStr v → u == v

variable {Uri : Type} [HttpUri Uri]

namespace XmppConnectionType

def text : XmppConnectionType Uri → Bytes
  | webSocket uri _ => HttpUri.toStr uri
  | webTransport url => url.serialization
  | _ => []

omit [HttpUri Uri] in
def origin : XmppConnectionType Uri → Bytes
  | webSocket _ origin => origin
  | _ => []

theorem cmp_eq (a b : XmppConnectionType Uri) :
    a.cmp b = compareLex (compareOn idx) (compareLex (compareOn text) (compareOn origin)) a b := by
  -- Two types that differ are told apart by their index.
  cases a <;> cases b <;> first
    | rfl
    | simp [cmp, compareLex, compareOn, idx, text, origin, ReflOrd.compare_self]

instance : Std.TransOrd (XmppConnectionType Uri) := by
  have h : (compare : XmppConnectionType Uri → XmppConnectionType Uri → Ordering) =
      compareLex (compareOn idx) (compareLex (compareOn text) (compareOn origin)) :=
    funext fun a => funext fun b => cmp_eq a b
  rw [Std.TransOrd, h]
  infer_instance

variable [LawfulHttpUri Uri]

theorem beq_iff {a b : XmppConnectionType Uri} :
    a == b ↔ a = b ∨ ∃ uri uri' origin, a = webSocket uri origin ∧ b = webSocket uri' origin ∧ uri == uri' := by
  show beq a b ↔ _
  constructor
  · intro h
    cases a <;> cases b <;> simp_all [beq]
  · rintro (rfl | ⟨uri, uri', origin, rfl, rfl, h⟩)
    · cases a <;> simp [beq]
    · simp [beq, h]

instance : EquivBEq (XmppConnectionType Uri) where
  rfl := beq_iff.mpr (.inl rfl)
  symm h := by
    rcases beq_iff.mp h with rfl | ⟨uri, uri', origin, rfl, rfl, huri⟩
    · exact h
    · exact beq_iff.mpr (.inr ⟨uri', uri, origin, rfl, rfl, BEq.symm huri⟩)
  trans hab hbc := by
    rcases beq_iff.mp hab with rfl | ⟨uri, uri', origin, rfl, rfl, h⟩
    · exact hbc
    · rcases beq_iff.mp hbc with rfl | ⟨_, uri'', _, heq, rfl, h'⟩
      · exact hab
      · obtain ⟨rfl, rfl⟩ := webSocket.inj heq
        exact beq_iff.mpr (.inr ⟨uri, uri'', origin, rfl, rfl, BEq.trans h h'⟩)

theorem beq_of_cmp {a b : XmppConnectionType Uri} (h : a.cmp b = .eq) : a == b := by
  rw [cmp_eq] at h
  simp only [compareLex, compareOn, Ordering.then_eq_eq, Std.compare_eq_iff_eq] at h
  obtain ⟨hidx, htext, horigin⟩ := h
  apply beq_iff.mpr
  cases a <;> cases b <;> first
    | exact .inl rfl
    | (simp [idx] at hidx; done)
    | skip
  · obtain rfl := horigin
    exact .inr ⟨_, _, _, rfl, rfl, LawfulHttpUri.beq_of_toStr htext⟩
  · exact .inl (congrArg webTransport (Url.ext htext))

end XmppConnectionType

namespace XmppConnection

/-- The part of `cmp` that puts equal connections next to each other. -/
def places (a b : XmppConnection Uri) : Ordering :=
  (a.connType.cmp b.connType).then <| (compare a.port b.port).then <| compare a.target b.target

omit [HttpUri Uri] in
/-- Secure first, then the lowest priority, then the highest weight. -/
def prefers (a b : XmppConnection Uri) : Ordering :=
  (compare b.secure a.secure).then <| (compare a.priority b.priority).then <| compare b.weight a.weight

instance : TransCmp (@places Uri _) :=
  inferInstanceAs
    (TransCmp (compareLex (compareOn connType) (compareLex (compareOn port) (compareOn target))))

omit [HttpUri Uri] in
theorem transCmp_down {α : Type} [Ord α] [Std.TransOrd α] (f : XmppConnection Uri → α) :
    TransCmp fun a b => compareOn f b a :=
  @TransCmp.opposite _ (compareOn f) inferInstance

instance : TransCmp (@prefers Uri) := by
  have hsecure := transCmp_down fun a : XmppConnection Uri => a.secure
  have hweight := transCmp_down fun a : XmppConnection Uri => a.weight
  exact inferInstanceAs (TransCmp (compareLex (fun a b => compareOn secure b a)
    (compareLex (compareOn priority) fun a b => compareOn weight b a)))

instance : TransCmp (@cmpPriority Uri) := by
  have hweight := transCmp_down fun a : XmppConnection Uri => a.weight
  exact inferInstanceAs (TransCmp (compareLex (compareOn priority)
    (compareLex (compareOn fun a => a.connType.idx) fun a b => compareOn weight b a)))

/-- `cmp` is the two parts after each other where the weight is the priority. -/
theorem cmp_eq {a : XmppConnection Uri} (h : a.weight = a.priority) (b : XmppConnection Uri) :
    a.cmp b = (places a b).then (prefers a b) := by
  simp only [cmp, places, prefers, h, Ordering.then_assoc]

theorem orderOn_cmp_iff {ret : List (XmppConnection Uri)} :
    OrderOn cmp ret ↔ ∀ a ∈ ret, a.weight = a.priority := by
  constructor
  · intro h a ha
    have hself := h.refl a ha
    simp only [cmp, Ordering.then_eq_eq, Std.compare_eq_iff_eq] at hself
    exact hself.2.2.2.2.2
  · intro h
    have hlex := OrderOn.of_transCmp (compareLex (@places Uri _) prefers) ret
    exact hlex.congr fun a ha b _ => cmp_eq (h a ha) b

theorem beq_iff {a b : XmppConnection Uri} :
    a == b ↔ a.connType == b.connType ∧ a.port = b.port ∧ a.target = b.target := by
  show (a.connType == b.connType && a.port == b.port && a.target == b.target) = true ↔ _
  simp [and_assoc]

instance [LawfulHttpUri Uri] : EquivBEq (XmppConnection Uri) where
  rfl := beq_iff.mpr ⟨BEq.rfl, rfl, rfl⟩
  symm h := by
    obtain ⟨hc, hp, ht⟩ := beq_iff.mp h
    exact beq_iff.mpr ⟨BEq.symm hc, hp.symm, ht.symm⟩
  trans hab hbc := by
    obtain ⟨hc, hp, ht⟩ := beq_iff.mp hab
    obtain ⟨hc', hp', ht'⟩ := beq_iff.mp hbc
    exact beq_iff.mpr ⟨BEq.trans hc hc', hp.trans hp', ht.trans ht'⟩

theorem beq_of_places [LawfulHttpUri Uri] {a b : XmppConnection Uri} (h : places a b = .eq) : a == b := by
  simp only [places, Ordering.then_eq_eq, Std.compare_eq_iff_eq] at h
  exact beq_iff.mpr ⟨XmppConnectionType.beq_of_cmp h.1, h.2.1, h.2.2⟩

theorem places_ne_gt {a b : XmppConnection Uri} (h : a.cmp b ≠ .gt) : places a b ≠ .gt := by
  intro hgt
  apply h
  simp only [places, Ordering.then_eq_gt] at hgt
  simp only [cmp, Ordering.then_eq_gt]
  rcases hgt with hgt | ⟨heq, hgt | ⟨heq', hgt⟩⟩
  · exact .inl hgt
  · exact .inr ⟨heq, .inl hgt⟩
  · exact .inr ⟨heq, .inr ⟨heq', .inl hgt⟩⟩

end XmppConnection

open XmppConnection

/-- What a list of connections is sorted and deduplicated into. -/
structure Candidates (ret out : List (XmppConnection Uri)) : Prop where
  subperm : out.Subperm ret
  distinct : out.Pairwise fun a b => ¬ a == b
  best : ∀ a ∈ ret, ∃ b ∈ out, b == a ∧ ∀ c ∈ ret, c == a → prefers b c ≠ .gt
  sorted : Ascending cmpPriority out

/-- No connection has its place between two others that are equal. -/
def Together (ret : List (XmppConnection Uri)) : Prop :=
  ∀ a ∈ ret, ∀ x ∈ ret, ∀ b ∈ ret, a == b → places a x ≠ .gt → places x b ≠ .gt → a == x

/-- Of equal connections, one that has the first place is also one that is preferred. -/
def BestFirst (ret : List (XmppConnection Uri)) : Prop :=
  ∀ a ∈ ret, ∃ b ∈ ret, b == a ∧ ∀ c ∈ ret, c == a → places b c ≠ .gt ∧ prefers b c ≠ .gt

theorem sortWith_eq_ok {α : Type} {sort : SortBy} {cmp : α → α → Ordering} {l out : List α} :
    sortWith sort cmp l = .ok out ↔ sort.run cmp l = some out := by
  unfold sortWith
  cases sort.run cmp l <;> simp

theorem sortDedup_eq_ok {sort : SortBy} {ret out : List (XmppConnection Uri)} :
    sortDedup sort ret = .ok out ↔
      ∃ l, sort.run XmppConnection.cmp ret = some l ∧ sort.run cmpPriority (dedup l) = some out := by
  simp only [sortDedup, Outcome.bind_eq_ok, sortWith_eq_ok]

theorem sortDedup_subperm {sort : SortBy} {ret out : List (XmppConnection Uri)}
    (h : sortDedup sort ret = .ok out) : out.Subperm ret := by
  obtain ⟨l, hl, hout⟩ := sortDedup_eq_ok.mp h
  exact (sort.perm hout).subperm.trans ((dedup_sublist l).subperm.trans (sort.perm hl).subperm)

variable [LawfulHttpUri Uri]

theorem sortDedup_covers {sort : SortBy} {ret out : List (XmppConnection Uri)}
    (h : sortDedup sort ret = .ok out) {a : XmppConnection Uri} (ha : a ∈ ret) : ∃ b ∈ out, b == a := by
  obtain ⟨l, hl, hout⟩ := sortDedup_eq_ok.mp h
  obtain ⟨b, hb, hba⟩ := mem_dedup ((sort.perm hl).mem_iff.mpr ha)
  exact ⟨b, (sort.perm hout).mem_iff.mpr hb, hba⟩

section Sorted

variable {ret l : List (XmppConnection Uri)}

theorem grouped_iff_together (hl : l.Perm ret) (hs : Ascending XmppConnection.cmp l) :
    Grouped l ↔ Together ret := by
  have hplaces : Ascending places l := hs.imp fun hab => places_ne_gt hab
  rw [grouped_iff (OrderOn.of_transCmp places l) hplaces fun a _ b _ => beq_of_places]
  simp only [Together, hl.mem_iff]

theorem exists_first (ho : OrderOn XmppConnection.cmp ret) (hl : l.Perm ret)
    (hs : Ascending XmppConnection.cmp l) {a : XmppConnection Uri} (ha : a ∈ ret) :
    ∃ b ∈ dedup l, b == a ∧ ∀ c ∈ ret, c == a → b.cmp c ≠ .gt := by
  have hrefl : ∀ c ∈ l, c.cmp c ≠ .gt := by
    intro c hc
    rw [ho.refl c (hl.mem_iff.mp hc)]
    decide
  obtain ⟨b, hb, hba, hfirst⟩ := dedup_first l hs hrefl a (hl.mem_iff.mpr ha)
  exact ⟨b, hb, hba, fun c hc => hfirst c (hl.mem_iff.mpr hc)⟩

theorem best_of_bestFirst (hw : ∀ a ∈ ret, a.weight = a.priority) (hb : BestFirst ret) (hl : l.Perm ret)
    (hs : Ascending XmppConnection.cmp l) {a : XmppConnection Uri} (ha : a ∈ ret) :
    ∃ b ∈ dedup l, b == a ∧ ∀ c ∈ ret, c == a → prefers b c ≠ .gt := by
  have ho : OrderOn XmppConnection.cmp ret := orderOn_cmp_iff.mpr hw
  obtain ⟨b, hbl, hba, hfirst⟩ := exists_first ho hl hs ha
  obtain ⟨d, hd, hda, hbest⟩ := hb a ha
  have hbret : b ∈ ret := hl.mem_iff.mp ((dedup_sublist l).subset hbl)
  refine ⟨b, hbl, hba, fun c hc hca => ?_⟩
  -- The kept connection and the best one tie.
  have hdb : d.cmp b ≠ .gt := by
    obtain ⟨hplaces, hprefers⟩ := hbest b hbret hba
    rw [cmp_eq (hw d hd), Ne, Ordering.then_eq_gt]
    rintro (h | ⟨-, h⟩)
    · exact hplaces h
    · exact hprefers h
  have heq : b.cmp d = .eq := ho.antisymm hbret hd (hfirst d hd hda) hdb
  rw [cmp_eq (hw b hbret), Ordering.then_eq_eq] at heq
  have hbd : prefers b d ≠ .gt := by
    rw [heq.2]
    decide
  exact (OrderOn.of_transCmp prefers ret).trans b hbret d hd c hc hbd (hbest c hc hca).2

end Sorted

/-- `cmp` orders the connections and `sort_dedup` leaves each of them once, at its best and sorted,
whatever sort is used, exactly when every weight is the priority, equal connections have their places
together and the best of them comes first. -/
theorem candidates_iff (ret : List (XmppConnection Uri)) :
    (OrderOn XmppConnection.cmp ret ∧
      ∀ sort : SortBy, ∃ out, sortDedup sort ret = .ok out ∧ Candidates ret out) ↔
    (∀ a ∈ ret, a.weight = a.priority) ∧ Together ret ∧ BestFirst ret := by
  constructor
  · rintro ⟨ho, hsort⟩
    obtain ⟨out, hok, hcand⟩ := hsort insertionSortBy
    obtain ⟨l, hrun, hout⟩ := sortDedup_eq_ok.mp hok
    have hl : l.Perm ret := insertionSortBy.perm hrun
    obtain ⟨l', hrun', hs⟩ := insertionSortBy.sorted ho
    obtain rfl : l' = l := Option.some.inj (hrun'.symm.trans hrun)
    have hperm : out.Perm (dedup l') := insertionSortBy.perm hout
    have hgrouped : Grouped l' :=
      (dedup_distinct_iff l').mp ((distinct_perm_iff hperm).mp hcand.distinct)
    refine ⟨orderOn_cmp_iff.mp ho, (grouped_iff_together hl hs).mp hgrouped, fun a ha => ?_⟩
    -- The one that is kept first is the only one kept, hence the best.
    obtain ⟨b, hb, hba, hfirst⟩ := exists_first ho hl hs ha
    obtain ⟨d, hd, hda, hbest⟩ := hcand.best a ha
    have hbout : b ∈ out := hperm.mem_iff.mpr hb
    obtain rfl : b = d := eq_of_distinct hcand.distinct hbout hd (BEq.trans hba (BEq.symm hda))
    exact ⟨b, hl.mem_iff.mp ((dedup_sublist l').subset hb), hba, fun c hc hca =>
      ⟨places_ne_gt (hfirst c hc hca), hbest c hc hca⟩⟩
  · rintro ⟨hw, htogether, hbest⟩
    have ho : OrderOn XmppConnection.cmp ret := orderOn_cmp_iff.mpr hw
    refine ⟨ho, fun sort => ?_⟩
    obtain ⟨l, hrun, hs⟩ := sort.sorted ho
    have hl : l.Perm ret := sort.perm hrun
    obtain ⟨out, hrun', hs'⟩ := sort.sorted (OrderOn.of_transCmp cmpPriority (dedup l))
    have hperm : out.Perm (dedup l) := sort.perm hrun'
    have hok : sortDedup sort ret = .ok out := sortDedup_eq_ok.mpr ⟨l, hrun, hrun'⟩
    refine ⟨out, hok, sortDedup_subperm hok, ?_, fun a ha => ?_, hs'⟩
    · exact (distinct_perm_iff hperm).mpr
        ((dedup_distinct_iff l).mpr ((grouped_iff_together hl hs).mpr htogether))
    · obtain ⟨b, hb, hba, hpref⟩ := best_of_bestFirst hw hbest hl hs ha
      exact ⟨b, hperm.mem_iff.mpr hb, hba, hpref⟩

/-- Where no URL is read, no reader of URLs is needed. -/
instance : HttpUri Empty where
  beq := nofun
  tryFrom _ := none
  host := nofun
  port := nofun
  toStr := nofun
  parseUrl _ := none
  urlPort _ := none

instance : LawfulHttpUri Empty where
  rfl {a} := a.elim
  symm {a} := a.elim
  trans {a} := a.elim
  beq_of_toStr {a} := a.elim

def exampleOrg (priority weight : UInt16) : XmppConnection Empty :=
  ⟨.directTLS, priority, weight, 443, bytes "example.org", true, [], none⟩

/-- Neither weight is the priority: each of the two connections comes before itself and before the
other, and what the insertion keeps is the one of lower weight. -/
theorem weights_disordered :
    ¬ (OrderOn XmppConnection.cmp [exampleOrg 10 5, exampleOrg 10 0] ∧
      ∀ sort : SortBy, ∃ out, sortDedup sort [exampleOrg 10 5, exampleOrg 10 0] = .ok out ∧
        Candidates [exampleOrg 10 5, exampleOrg 10 0] out) ∧
    sortDedup insertionSortBy [exampleOrg 10 5, exampleOrg 10 0] = .ok [exampleOrg 10 0] := by
  refine ⟨?_, rfl⟩
  rintro ⟨ho, -⟩
  have hself : (exampleOrg 10 5).cmp (exampleOrg 10 5) = .eq := ho.refl _ List.mem_cons_self
  revert hself
  decide

theorem candidates_two :
    OrderOn XmppConnection.cmp [exampleOrg 10 10, exampleOrg 5 5] ∧
      ∀ sort : SortBy, ∃ out, sortDedup sort [exampleOrg 10 10, exampleOrg 5 5] = .ok out ∧
        Candidates [exampleOrg 10 10, exampleOrg 5 5] out := by
  apply (candidates_iff _).mpr
  refine ⟨by decide, ?_, ?_⟩
  · unfold Together
    decide
  · unfold BestFirst
    decide

end XmppProxy
