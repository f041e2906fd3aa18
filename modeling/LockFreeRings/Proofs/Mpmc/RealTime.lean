import LockFreeRings.Proofs.Mpmc.Endings
import LockFreeRings.Proofs.Mpmc.Exchange
set_option autoImplicit false

/-!
# Positions respect real time

A call that ends before another begins has the smaller position, if both have taken one
(`System.Ordered`).  For the later call has read its cursor after it began, when the
position of the earlier one was behind the cursor already; `Activity.tailsBefore` and
`Activity.headsBefore` are the counts of the cursors at that time.

As pops take positions in their order, elements are taken out in the order in which
their pushes came one after the other, those of one thread among them
(`Reachable.respectsTime`).
-/

namespace LockFreeRings.Mpmc

variable {n : SlotCount} {α ι : Type}

/-! ## Pairs in a list -/

/-- A pair in a list with a new last element is one from before, or ends with it. -/
theorem pair_sublist_concat {β : Type} {l : List β} {x y z : β} :
    [x, y].Sublist (l ++ [z]) ↔ [x, y].Sublist l ∨ (y = z ∧ x ∈ l) := by
  rw [← List.reverse_sublist, ← @List.reverse_sublist _ [x, y] l]
  simp [List.cons_sublist_cons']

/-- A pair that ends with none of the elements added at the end is one from before. -/
theorem pair_sublist_of_append {β : Type} {l extra : List β} {x y : β} (hy : y ∉ extra)
    (h : [x, y].Sublist (l ++ extra)) : [x, y].Sublist l := by
  induction extra using List.reverseRecOn with
  | nil => rwa [List.append_nil] at h
  | append_singleton extra z ih =>
      rw [List.mem_append, List.mem_singleton, not_or] at hy
      rw [← List.append_assoc, pair_sublist_concat] at h
      exact ih hy.1 (h.resolve_right fun hz => hy.2 hz.1)

/-- In a list that is sorted by keys, what has the smaller key comes first. -/
theorem pair_sublist_of_sorted {β : Type} {key : β → Option Nat} {l : List β}
    (hsorted : (l.filterMap key).Pairwise (· < ·)) {x y : β} (hx : x ∈ l) (hy : y ∈ l) {i j : Nat}
    (hi : key x = some i) (hj : key y = some j) (hlt : i < j) : [x, y].Sublist l := by
  induction l with
  | nil => cases hx
  | cons z l ih =>
      have htail : (l.filterMap key).Pairwise (· < ·) :=
        hsorted.sublist ((List.sublist_cons_self z l).filterMap key)
      rcases List.mem_cons.mp hx with rfl | hxl
      · have hyl : y ∈ l := by
          refine (List.mem_cons.mp hy).resolve_left ?_
          rintro rfl
          rw [hi] at hj
          cases hj
          exact Nat.lt_irrefl _ hlt
        exact (List.singleton_sublist.mpr hyl).cons_cons x
      · rcases List.mem_cons.mp hy with rfl | hyl
        · rw [List.filterMap_cons_some hj, List.pairwise_cons] at hsorted
          have := hsorted.1 i (List.mem_filterMap.mpr ⟨x, hxl, hi⟩)
          omega
        · exact (ih htail hxl hyl).cons z

namespace System

/-- In the history of the system, `x` came before `y`. -/
def Before (s : System n α ι) (x y : Record ι α) : Prop := [x, y].Sublist s.history

/-! ## Calls that come one after the other -/

/-- Of the calls that took positions, given by number and position, one that began when
another had ended has the greater position.  For a call in progress `before` is the count
of the cursor when it began, and those that had ended then have smaller positions. -/
structure Ordered (s : System n α ι) (took : List (Nat × Nat)) (before : Activity α → Nat) :
    Prop where
  settled : ∀ x ∈ took, ∀ y ∈ took, ∀ record t, record.Ends x.1 t → ∀ u request,
    s.Before record (.began y.1 u request) → x.2 < y.2
  pending : ∀ x ∈ took, ∀ record t, record.Ends x.1 t → ∀ u a, s.active u = some a →
    ∀ w request, s.Before record (.began a.number w request) → x.2 < before a

/-- The pushes that have taken a position, by number and position. -/
def claims (s : System n α ι) : List (Nat × Nat) := s.fillings.map fun f => (f.number, f.pos)

/-- The pops that have taken a position, by number and position. -/
def takes (s : System n α ι) : List (Nat × Nat) := s.emptyings.map fun e => (e.number, e.pos)

/-- Calls take positions in the order in which they come one after the other, and those
of one thread do come so. -/
structure Timely (s : System n α ι) : Prop where
  claims : s.Ordered s.claims Activity.tailsBefore
  takes : s.Ordered s.takes Activity.headsBefore
  sequential : ∀ number number' t request request',
    s.Before (.began number t request) (.began number' t request') →
      ∃ record, record.Ends number t ∧ s.Before record (.began number' t request')

theorem Timely.start (n : SlotCount) (ι : Type) (blank : α) : (System.start n ι blank).Timely := by
  refine ⟨⟨?_, ?_⟩, ⟨?_, ?_⟩, ?_⟩ <;>
    simp [System.start, System.claims, System.takes, fillings, emptyings, Before]

variable [DecidableEq ι] {s s' : System n α ι} {t : ι} {a : Activity α}

/-! ## A call that begins -/

/-- What came before an older record did so before the call began. -/
theorem before_of_begin {request : Request α} {x : Record ι α} {number : Nat} {u : ι}
    {request' : Request α} (hne : number ≠ s.calls)
    (h : (s.begin t request).Before x (.began number u request')) :
    s.Before x (.began number u request') := by
  refine pair_sublist_of_append ?_ h
  simp [hne]

/-- A call that begins has seen none of the positions that were taken. -/
theorem Ordered.begin {took : List (Nat × Nat)} {before : Activity α → Nat}
    (o : s.Ordered took before) (h : s.Sound) (request : Request α)
    (hnumber : ∀ x ∈ took, x.1 < s.calls)
    (hpos : ∀ x ∈ took, x.2 <
      before ⟨s.calls, request, request.call, 0, s.positions.tails, s.positions.heads⟩) :
    (s.begin t request).Ordered took before where
  settled x hx y hy record u hends w request' hbefore :=
    o.settled x hx y hy record u hends w request'
      (before_of_begin (hnumber y hy).ne hbefore)
  pending x hx record u hends w b hb w' request' hbefore := by
    rcases h.roster.active_begin hb with ⟨-, rfl⟩ | ⟨hw, hlt⟩
    · exact hpos x hx
    · exact o.pending x hx record u hends w b hw w' request' (before_of_begin hlt.ne hbefore)

/-- A thread that begins a call has ended those before. -/
theorem Timely.begin (m : s.Timely) (h : s.Sound) (e : s.Endings) (hidle : s.active t = none)
    (request : Request α) : (s.begin t request).Timely where
  claims := by
    rw [System.claims, fillings_begin]
    refine m.claims.begin h request ?_ ?_ <;> intro x hx <;>
      obtain ⟨f, hf, rfl⟩ := List.mem_map.mp hx
    · obtain ⟨u, hu⟩ := h.roster.filling_began f hf
      exact h.roster.began_lt _ _ _ hu
    · exact h.ledger.pos_lt hf
  takes := by
    rw [System.takes, emptyings_begin]
    refine m.takes.begin h request ?_ ?_ <;> intro x hx <;>
      obtain ⟨d, hd, rfl⟩ := List.mem_map.mp hx
    · obtain ⟨u, hu⟩ := h.roster.emptying_began d hd
      exact h.roster.began_lt _ _ _ hu
    · exact h.ledger.emptying_pos_lt hd
  sequential number number' u request₁ request₂ hbefore := by
    rcases pair_sublist_concat.mp hbefore with hold | ⟨heq, hbegan⟩
    · obtain ⟨record, hends, hrecord⟩ := m.sequential number number' u request₁ request₂ hold
      exact ⟨record, hends, hrecord.trans (List.sublist_append_left _ _)⟩
    · cases heq
      rcases e.ended number t request₁ hbegan with ⟨b, hb, -⟩ | ⟨record, hrecord, hends⟩
      · cases hidle.symm.trans hb
      · exact ⟨record, hends, pair_sublist_concat.mpr (.inr ⟨rfl, hrecord⟩)⟩

/-! ## A call that moves -/

section moved

variable {next : Option (Activity α)} {ring : Ring n α} {positions : Positions}
  {extra : List (Record ι α)}

/-- What a call takes is behind what was taken when it began. -/
theorem Ordered.moved {took : List (Nat × Nat)} {before : Activity α → Nat}
    (o : s.Ordered took before) (h : s.Sound) (e : s.Endings) (ha : s.active t = some a)
    (hsame : ∀ b, next = some b → b.number = a.number ∧ before b = before a)
    (hbegan : ∀ number u request, .began number u request ∉ extra) {more : List (Nat × Nat)}
    (hmore : ∀ x ∈ more, x.1 = a.number ∧ before a ≤ x.2) :
    (s.moved t next ring positions extra).Ordered (took ++ more) before := by
  have hold : ∀ x ∈ took ++ more, ∀ record u, record.Ends x.1 u → ∀ number w request,
      (s.moved t next ring positions extra).Before record (.began number w request) →
        x ∈ took ∧ s.Before record (.began number w request) := by
    intro x hx record u hends number w request hbefore
    have hbefore := pair_sublist_of_append (hbegan number w request) hbefore
    refine ⟨(List.mem_append.mp hx).resolve_right fun hnew => ?_, hbefore⟩
    rw [(hmore x hnew).1] at hends
    exact h.not_ends e ha (hbefore.subset (by simp)) u hends
  constructor
  case settled =>
    intro x hx y hy record u hends w request hbefore
    obtain ⟨hxtook, hbefore'⟩ := hold x hx record u hends _ w request hbefore
    rcases List.mem_append.mp hy with hy | hy
    · exact o.settled x hxtook y hy record u hends w request hbefore'
    · obtain ⟨hn, hle⟩ := hmore y hy
      rw [hn] at hbefore'
      exact (o.pending x hxtook record u hends t a ha w request hbefore').trans_le hle
  case pending =>
    intro x hx record u hends w b hb w' request hbefore
    obtain ⟨hxtook, hbefore'⟩ := hold x hx record u hends _ w' request hbefore
    rcases active_of_moved hb with ⟨-, hnext⟩ | ⟨-, hw⟩
    · rw [(hsame b hnext).1] at hbefore'
      rw [(hsame b hnext).2]
      exact o.pending x hxtook record u hends t a ha w' request hbefore'
    · exact o.pending x hxtook record u hends w b hw w' request hbefore'

/-- What a call may take and add to the history. -/
theorem Timely.moved (m : s.Timely) (h : s.Sound) (e : s.Endings) (ha : s.active t = some a)
    (hsame : ∀ b, next = some b → b.number = a.number ∧ b.tailsBefore = a.tailsBefore ∧
      b.headsBefore = a.headsBefore)
    (hbegan : ∀ number u request, .began number u request ∉ extra)
    (hclaims : ∀ f ∈ extra.filterMap Record.filling?, f.number = a.number ∧ a.tailsBefore ≤ f.pos)
    (htakes : ∀ d ∈ extra.filterMap Record.emptying?,
      d.number = a.number ∧ a.headsBefore ≤ d.pos) :
    (s.moved t next ring positions extra).Timely where
  claims := by
    rw [System.claims, fillings_moved, List.map_append]
    refine m.claims.moved h e ha (fun b hb => ⟨(hsame b hb).1, (hsame b hb).2.1⟩) hbegan ?_
    intro x hx
    obtain ⟨f, hf, rfl⟩ := List.mem_map.mp hx
    exact hclaims f hf
  takes := by
    rw [System.takes, emptyings_moved, List.map_append]
    refine m.takes.moved h e ha (fun b hb => ⟨(hsame b hb).1, (hsame b hb).2.2⟩) hbegan ?_
    intro x hx
    obtain ⟨d, hd, rfl⟩ := List.mem_map.mp hx
    exact htakes d hd
  sequential number number' u request request' hbefore := by
    have hbefore' := pair_sublist_of_append (hbegan number' u request') hbefore
    obtain ⟨record, hends, hrecord⟩ := m.sequential number number' u request request' hbefore'
    exact ⟨record, hends, hrecord.trans (List.sublist_append_left _ _)⟩

end moved

/-- Whatever an action comes to, calls still take positions in their order. -/
theorem Timely.comes (m : s.Timely) (h : s.Sound) (e : s.Endings) (hcomes : s.Comes s') :
    s'.Timely := by
  cases hcomes with
  | still => exact m
  | begin request idle => exact m.begin h e idle request
  | giveUp active calls fills =>
      rw [giveUp_eq_moved]
      exact m.moved h e active (by simp) (by simp) (by simp [Record.filling?])
        (by simp [Record.emptying?])
  | goOn active call seen backs holds =>
      exact m.moved h e active (by rintro b ⟨⟩; simp) (by simp) (by simp) (by simp)
  | leave active holds kept notPushed notPopped =>
      exact m.moved h e active (by simp) (by simp) (by simp [Record.filling?])
        (by simp [Record.emptying?])
  | claim active calls seeks word current free =>
      have hbefore := (h.roster.active_before _ _ active).1
      refine m.moved h e active (by rintro b ⟨⟩; simp) (by simp) ?_ (by simp [Record.emptying?])
      intro f hf
      cases List.mem_singleton.mp hf
      exact ⟨rfl, hbefore.trans current.ge⟩
  | store active calls fills =>
      exact m.moved h e active (by rintro b ⟨⟩; simp) (by simp) (by simp) (by simp)
  | publish active calls fills stored =>
      exact m.moved h e active (by simp) (by simp) (by simp [Record.filling?])
        (by simp [Record.emptying?])
  | take active calls waits word current ready =>
      have hbefore := (h.roster.active_before _ _ active).2
      refine m.moved h e active (by rintro b ⟨⟩; simp) (by simp) (by simp [Record.filling?]) ?_
      intro d hd
      cases List.mem_singleton.mp hd
      exact ⟨rfl, hbefore.trans current.ge⟩
  | release active calls empties filling same =>
      exact m.moved h e active (by simp) (by simp) (by simp [Record.filling?])
        (by simp [Record.emptying?])

/-- In every reachable state calls have taken positions in their order. -/
theorem Reachable.timely (h : s.Reachable) : s.Timely := by
  induction h with
  | start blank => exact .start n ι blank
  | act action hreach hpaced ih =>
      exact ih.comes hreach.sound hreach.endings (hreach.sound.comes hreach.paced action)

/-- Positions, and with them elements, go by the order in which calls come. -/
structure RespectsTime (s : System n α ι) : Prop where
  /-- a push that has succeeded has taken one position -/
  pushed_took : ∀ number t request, .returned number t request .pushed ∈ s.history →
    ∃! f, f ∈ s.fillings ∧ f.number = number
  /-- a pop that has returned an element has taken one position -/
  popped_took : ∀ number t request v, .returned number t request (.popped v) ∈ s.history →
    ∃! e, e ∈ s.emptyings ∧ e.number = number
  /-- of two pushes that come one after the other, the first has the smaller position -/
  pushes : ∀ f ∈ s.fillings, ∀ g ∈ s.fillings, ∀ t u,
    s.Before (.returned f.number t (.push f.value) .pushed) (.began g.number u (.push g.value)) →
      f.pos < g.pos
  /-- of two pops that come one after the other, the first has the smaller position -/
  pops : ∀ e ∈ s.emptyings, ∀ d ∈ s.emptyings, ∀ t u v,
    s.Before (.returned e.number t .pop (.popped v)) (.began d.number u .pop) → e.pos < d.pos
  /-- the element of the first such push was taken before that of the second -/
  hands_over : ∀ f ∈ s.fillings, ∀ g ∈ s.fillings, ∀ t u,
    s.Before (.returned f.number t (.push f.value) .pushed) (.began g.number u (.push g.value)) →
      ∀ e ∈ s.emptyings, ∀ d ∈ s.emptyings, e.pos = f.pos → d.pos = g.pos →
        s.Before (.emptying e) (.emptying d)
  /-- the elements of one thread are taken in the order of its pushes -/
  producers : ∀ f ∈ s.fillings, ∀ g ∈ s.fillings, ∀ t,
    s.Before (.began f.number t (.push f.value)) (.began g.number t (.push g.value)) →
      ∀ e ∈ s.emptyings, ∀ d ∈ s.emptyings, e.pos = f.pos → d.pos = g.pos →
        s.Before (.emptying e) (.emptying d)

omit [DecidableEq ι] in
/-- Positions are taken on the head in their order. -/
theorem Ledger.before_of_lt (h : s.Ledger) {e d : Emptying} (he : e ∈ s.emptyings)
    (hd : d ∈ s.emptyings) (hlt : e.pos < d.pos) : s.Before (.emptying e) (.emptying d) := by
  have hsorted : (s.history.filterMap fun record =>
      record.emptying?.map Emptying.pos).Pairwise (· < ·) := by
    have hpos : (s.history.filterMap Record.emptying?).map Emptying.pos =
        List.range s.positions.heads := h.emptyings_pos
    rw [← List.map_filterMap, hpos]
    exact List.pairwise_lt_range
  exact pair_sublist_of_sorted hsorted (mem_emptyings.mp he) (mem_emptyings.mp hd) rfl rfl hlt

omit [DecidableEq ι] in
/-- A push that ends before another begins has taken the smaller position. -/
theorem Timely.pos_lt (m : s.Timely) {f g : Filling α} (hf : f ∈ s.fillings) (hg : g ∈ s.fillings)
    {record : Record ι α} {u : ι} (hends : record.Ends f.number u) {w : ι} {request : Request α}
    (hbefore : s.Before record (.began g.number w request)) : f.pos < g.pos :=
  m.claims.settled (f.number, f.pos) (List.mem_map_of_mem hf) (g.number, g.pos)
    (List.mem_map_of_mem hg) record u hends w request hbefore

/-- Whatever the threads do and in whatever order their steps come, positions go by the
order in which calls come one after the other, and elements are taken out in that order. -/
theorem Reachable.respectsTime (h : s.Reachable) : s.RespectsTime := by
  have hsound := h.sound
  have htimely := h.timely
  constructor
  case pushed_took =>
    intro number t request hr
    obtain ⟨f, hf, hn, -⟩ := hsound.roster.returned_kept number t request .pushed hr
    refine ⟨f, ⟨hf, hn⟩, fun g hg => ?_⟩
    exact List.inj_on_of_nodup_map hsound.roster.fillings_number hg.1 hf (hg.2.trans hn.symm)
  case popped_took =>
    intro number t request v hr
    obtain ⟨-, e, he, hn, -⟩ := hsound.roster.returned_kept number t request (.popped v) hr
    refine ⟨e, ⟨he, hn⟩, fun d hd => ?_⟩
    exact List.inj_on_of_nodup_map hsound.roster.emptyings_number hd.1 he (hd.2.trans hn.symm)
  case pushes =>
    exact fun f hf g hg t u hbefore => htimely.pos_lt hf hg (Record.ends_returned ..) hbefore
  case pops =>
    intro e he d hd t u v hbefore
    exact htimely.takes.settled (e.number, e.pos) (List.mem_map_of_mem he) (d.number, d.pos)
      (List.mem_map_of_mem hd) _ t (Record.ends_returned ..) u .pop hbefore
  case hands_over =>
    intro f hf g hg t u hbefore e he d hd hef hdg
    have hlt := htimely.pos_lt hf hg (Record.ends_returned ..) hbefore
    exact hsound.ledger.before_of_lt he hd (by omega)
  case producers =>
    intro f hf g hg t hbefore e he d hd hef hdg
    obtain ⟨record, hends, hrecord⟩ := htimely.sequential _ _ t _ _ hbefore
    have hlt := htimely.pos_lt hf hg hends hrecord
    exact hsound.ledger.before_of_lt he hd (by omega)

/-- One thread pushes twice, and another takes both elements. -/
def relay : List (Action Bool Nat) :=
  [.begin true (.push 7), .step true false, .step true false, .step true false,
    .step true false, .step true false, .begin true (.push 8), .step true false,
    .step true false, .step true false, .step true false, .step true false,
    .begin false .pop, .step false false, .step false false, .step false false,
    .step false false, .step false false, .begin false .pop, .step false false,
    .step false false, .step false false, .step false false, .step false false]

theorem relay_respectsTime :
    (run ⟨1, by decide, by decide⟩ 0 relay).Reachable ∧
      (run ⟨1, by decide, by decide⟩ 0 relay).RespectsTime ∧
      (run ⟨1, by decide, by decide⟩ 0 relay).popped = [7, 8] :=
  have h : (run ⟨1, by decide, by decide⟩ 0 relay).Reachable :=
    reachable_run _ _ _ (by simp [relay])
  ⟨h, h.respectsTime, by rfl⟩

end System

end LockFreeRings.Mpmc
