import Mathlib.Data.Fintype.Basic
import Eggdrop.Lib.TreeFlood
import Eggdrop.Base.AddrMatch
import Eggdrop.Botnet.DumpLinks
import Eggdrop.Botnet.Messages
import Eggdrop.Botnet.Isolation

/-!
# MessageRuns — what the scripts of a settled botnet hear

* `Settled`: all bots know the others, each behind the link that leads to it.
* `Sim`: the bots refine nodes that hand messages on along a tree.
* `Gets`: whom a message is for and comes to.
* `messages_delivered`: in every run where no read ends within a line that is too long, each bot
  hears what it gets, once and in the order in which it was said, and no line is taken for a fake.
-/

namespace Eggdrop.Tandem
namespace Messages

open List

variable {V : Type*} [DecidableEq V]

/-! ### A settled net -/

section Settled

open TreeFlood (Routes)

/-- All bots are in all lists, each behind the link that leads to it, and the links form a tree. -/
structure Settled (net : V → Bot) (R : Routes V) : Prop where
  inv : ∀ v, Botnet.Inv Sayable (net v).net
  short : ∀ v, (name net v).length ≤ handLen
  noAt : ∀ v, '@' ∉ name net v
  name_inj : ∀ v w, rfcCaseEq (name net v) (name net w) = true → v = w
  known : ∀ v, ∀ t ∈ (net v).net.tandbot, ∃ a, rfcCaseEq t.bot (name net a) = true
  nextbot : ∀ v a, (net v).net.nextbot (name net a) = (R.next v a).bind (link net v)
  linked : ∀ v w, (link net v w).isSome = true ↔ R.next v w = some w
  connected : ∀ v a, R.next v a = none → v = a

/-- What is said, and by whom. -/
structure Msg (V : Type*) where
  src : V
  body : Body

/-- Whom a bot sends a message of another one to, and from whom it takes it. -/
def rules (net : V → Bot) : TreeFlood.Rules V (Msg V) where
  src := Msg.src
  sends v m w := (link net v w).any fun i =>
    match m.body with
    | .chat _ => (net v).sendsTo ((net v).net.nextbot (name net m.src)) true i
    | .zapf to_ _ => (net v).net.nextbot to_ == some i && !strcaseEq to_ (name net v)
    | .zapfBroad _ _ => (net v).sendsTo ((net v).net.nextbot (name net m.src)) false i
  takes u v m :=
    match m.body with
    | .chat _ => !(link net v u).any (net v).isolate
    | _ => true

variable {net : V → Bot} {R : Routes V} {u v w a : V} {i : Nat} {m : Msg V}

omit [DecidableEq V] in
theorem link_eq_some (h : link net v w = some i) :
    ∃ d, (net v).net.dcc[i]? = some d ∧ strcaseEq d.nick (name net w) = true ∧ d.type = .bot := by
  obtain ⟨hlt, hp, -⟩ := findIdx?_eq_some_iff_getElem.1 h
  rw [Bool.and_eq_true, beq_iff_eq] at hp
  exact ⟨_, getElem?_eq_getElem hlt, hp.1, hp.2⟩

namespace Settled

variable (h : Settled net R)

include h

omit [DecidableEq V]

theorem link_inj (hv : link net v w = some i) (hu : link net v u = some i) : w = u := by
  obtain ⟨d, hd, hname, -⟩ := link_eq_some hv
  obtain ⟨d', hd', hname', -⟩ := link_eq_some hu
  obtain rfl := Option.some.inj (hd.symm.trans hd')
  rw [strcaseEq_comm] at hname
  exact h.name_inj _ _ (rfcCaseEq_of_strcaseEq (strcaseEq_trans hname hname'))

theorem next_of_link (hv : link net v w = some i) : R.next v w = some w :=
  (h.linked v w).1 (Option.isSome_iff_exists.2 ⟨i, hv⟩)

theorem link_of_next (hv : R.next v a = some w) : ∃ i, link net v w = some i :=
  Option.isSome_iff_exists.1 ((h.linked v w).2 (R.adjacent hv))

theorem nextbot_of_next (hv : R.next v a = some w) :
    (net v).net.nextbot (name net a) = link net v w := by
  rw [h.nextbot, hv, Option.bind_some]

theorem nextbot_self (v : V) : (net v).net.nextbot (name net v) = none := by
  rw [h.nextbot, R.next_self, Option.bind_none]

theorem nextbot_eq_link (hv : link net v w = some i) :
    (net v).net.nextbot (name net a) = some i ↔ R.next v a = some w := by
  rw [h.nextbot, Option.bind_eq_some_iff]
  constructor
  · rintro ⟨u, hu, hlink⟩
    rw [h.link_inj hv hlink]
    exact hu
  · intro hnext
    exact ⟨w, hnext, hv⟩

theorem tandbot_ne_nil (hv : link net v w = some i) : (net v).net.tandbot ≠ [] := by
  have hnext := h.nextbot_of_next (h.next_of_link hv)
  rw [hv] at hnext
  obtain ⟨b, hb, -⟩ := (h.inv v).nextbot_eq_some hnext
  exact ne_nil_of_mem hb

theorem dest_of_nextbot {to_ : CStr} (hto : (net v).net.nextbot to_ = some i) :
    ∃ d, rfcCaseEq to_ (name net d) = true := by
  obtain ⟨b, hb, -, -, -, hname, -⟩ := (h.inv v).nextbot_eq_some hto
  obtain ⟨d, hd⟩ := h.known v b hb
  exact ⟨d, rfcCaseEq_trans hname hd⟩

theorem outward : (rules net).Outward R := by
  intro m v w hcomes hs
  obtain ⟨i, hlink, hi⟩ := Option.any_eq_true _ _ |>.1 hs
  have hflood {iso : Bool} (hi : (net v).sendsTo ((net v).net.nextbot (name net m.src)) iso i = true) :
      R.next v w = some w ∧ R.next v m.src ≠ some w := by
    refine ⟨h.next_of_link hlink, fun hback => ?_⟩
    obtain ⟨d, -, hd⟩ := Option.any_eq_true _ _ |>.1 hi
    simp [(h.nextbot_eq_link hlink).2 hback] at hd
  rcases m with ⟨src, body⟩
  cases body with
  | chat text => exact hflood hi
  | zapfBroad opcode par => exact hflood hi
  | zapf to_ par =>
    simp only [Bool.and_eq_true, beq_iff_eq] at hi
    obtain ⟨d, hd⟩ := h.dest_of_nextbot hi.1
    refine hcomes.outward_dest (d := d) (fun u w' hs' => ?_) hs
    obtain ⟨j, hj, hto⟩ := Option.any_eq_true _ _ |>.1 hs'
    simp only [Bool.and_eq_true, beq_iff_eq] at hto
    rw [PartyLine.nextbot_congr hd] at hto
    exact (h.nextbot_eq_link hj).1 hto.1

end Settled

/-! ### What is sent -/

theorem filterMap_range_eq {α : Type*} {p : Nat → Bool} {i n : Nat} (hi : p i = true → i < n) (x : α) :
    (List.range n).filterMap (fun j => if i = j ∧ p j = true then some x else none) =
      if p i = true then [x] else [] := by
  induction n with
  | zero =>
    have hp : ¬p i = true := fun hp => Nat.not_lt_zero _ (hi hp)
    rw [if_neg hp]
    rfl
  | succ n ih =>
    rw [range_succ, filterMap_append]
    by_cases hin : i = n
    · have hnone : (List.range n).filterMap
          (fun j => if i = j ∧ p j = true then some x else none) = [] := by
        refine filterMap_eq_nil_iff.2 fun j hj => if_neg fun hij => ?_
        have hlt := mem_range.1 hj
        omega
      rw [hnone, nil_append, hin]
      by_cases hp : p n = true <;> simp [hp]
    · rw [ih fun hp => by have := hi hp; omega]
      simp [hin]

theorem sendsTo_lt {b : Bot} {x : Option Nat} {iso : Bool} (h : b.sendsTo x iso i = true) :
    i < b.net.dcc.length := by
  obtain ⟨d, hd, -⟩ := Option.any_eq_true _ _ |>.1 h
  exact (List.getElem?_eq_some_iff.1 hd).1

theorem linesTo_sendTandBut (b : Bot) (o x : Option Nat) (buf : CStr) (iso : Bool) :
    linesTo o (b.sendTandBut x buf iso) =
      if o.any (b.sendsTo x iso) = true then [dprint buf] else [] := by
  cases o with
  | none =>
    refine (filterMap_eq_nil_iff.2 fun p hp => ?_).trans (if_neg Bool.false_ne_true).symm
    exact if_neg nofun
  | some i =>
    rw [linesTo, Bot.sendTandBut, filterMap_filterMap, Option.any_some,
      ← filterMap_range_eq (p := b.sendsTo x iso) (fun hp => sendsTo_lt hp)]
    refine filterMap_congr fun j _ => ?_
    by_cases hj : b.sendsTo x iso j = true <;> simp [hj]

omit [DecidableEq V] in
theorem linesTo_of_empty {b : Bot} {out : List (Nat × CStr)} {o : Option Nat}
    (hempty : b.net.tandbot = [] → o = none) :
    linesTo o (if b.net.tandbot ≠ [] then out else []) = linesTo o out := by
  by_cases hb : b.net.tandbot = []
  · rw [if_neg (not_not.2 hb), hempty hb]
    exact (filterMap_eq_nil_iff.2 fun p hp => if_neg nofun).symm
  · rw [if_pos hb]

/-- The lines of a message as a bot hands it on. -/
def forward (b : Bot) (x : Option Nat) (from_ : CStr) : Body → List (Nat × CStr)
  | .chat text => b.botnetSendChat x from_ text
  | .zapf to_ par =>
    if strcaseEq to_ b.net.botnetnick then []
    else ((b.net.nextbot to_).map fun i => Bot.botnetSendZapf i from_ to_ par).getD []
  | .zapfBroad opcode par => b.botnetSendZapfBroad x from_ (some opcode) par

namespace Settled

variable (h : Settled net R)

include h

omit [DecidableEq V]

theorem link_of_empty (hb : (net v).net.tandbot = []) (w : V) : link net v w = none := by
  cases hlink : link net v w with
  | none => rfl
  | some i => exact absurd hb (h.tandbot_ne_nil hlink)

theorem linesTo_forward (v w a : V) (body : Body) :
    linesTo (link net v w) (forward (net v) ((net v).net.nextbot (name net a)) (name net a) body) =
      if (rules net).sends v ⟨a, body⟩ w = true then [dprint (body.line (name net a))] else [] := by
  cases body with
  | chat text =>
    rw [forward, Bot.botnetSendChat, linesTo_of_empty fun hb => h.link_of_empty hb w,
      linesTo_sendTandBut]
    rfl
  | zapfBroad opcode par =>
    rw [forward, Bot.botnetSendZapfBroad, linesTo_of_empty fun hb => h.link_of_empty hb w,
      linesTo_sendTandBut]
    rfl
  | zapf to_ par =>
    have hsends : (rules net).sends v ⟨a, .zapf to_ par⟩ w = true ↔
        ∃ i, link net v w = some i ∧ (net v).net.nextbot to_ = some i ∧
          ¬strcaseEq to_ (name net v) = true := by
      simp [rules, Option.any_eq_true]
    rw [forward]
    by_cases hme : strcaseEq to_ (net v).net.botnetnick = true
    · rw [if_pos hme, if_neg fun hs => (hsends.1 hs).elim fun i hi => hi.2.2 hme]
      rfl
    · rw [if_neg hme]
      cases hto : (net v).net.nextbot to_ with
      | none =>
        rw [if_neg fun hs => by simpa [hto] using hsends.1 hs]
        rfl
      | some i =>
        by_cases hlink : link net v w = some i
        · rw [if_pos (hsends.2 ⟨i, hlink, hto, hme⟩), hlink]
          simp [linesTo, Bot.botnetSendZapf, Body.line]
        · rw [if_neg fun hs => hlink (by
            obtain ⟨j, hj, hj', -⟩ := hsends.1 hs
            rw [hj, ← hto, hj'])]
          simp [linesTo, Bot.botnetSendZapf, hlink]

end Settled

/-! ### The bots refine nodes that hand messages on -/

open TreeFlood (ofSrc)

/-- The line is read as the message, and will not be cut any more. -/
def Carries (net : V → Bot) (m : Msg V) (line : CStr) : Prop :=
  readLine (linebufCopy line) = some (name net m.src, m.body) ∧ m.body.Short (name net m.src)

/-- What the scripts of a bot hear of a message. -/
def callAt (net : V → Bot) (v : V) (m : Msg V) : Option Call :=
  if m.src = v then none
  else match m.body with
    | .zapf to_ _ => if strcaseEq to_ (name net v) then some (m.body.call (name net m.src)) else none
    | _ => some (m.body.call (name net m.src))

structure Sim (net : V → Bot) (s : State V) (t : TreeFlood.State V (Msg V)) : Prop where
  wire : ∀ u v, Forall₂ (Carries net) (t.wire u v) (s.wire u v)
  said : ∀ v, s.said v = (ofSrc (rules net) v (t.log v)).map Msg.body
  heard : ∀ v, s.heard v = (t.log v).filterMap (callAt net v)

variable {s : State V} {t : TreeFlood.State V (Msg V)}

theorem sim_init : Sim net .init .init := ⟨fun _ _ => .nil, fun _ => rfl, fun _ => rfl⟩

theorem Sim.transmit (hsim : Sim net s t) {out : List (Nat × CStr)} {line : CStr}
    (hcarries : Carries net m line)
    (hout : ∀ w, linesTo (link net v w) out =
      if (rules net).sends v m w = true then [line] else []) (x y : V) :
    Forall₂ (Carries net) ((t.post (rules net) v m).wire x y) ((s.transmit net v out).wire x y) := by
  refine rel_append (hsim.wire x y) ?_
  by_cases hx : x = v
  · rw [if_pos hx, hout y]
    by_cases hs : (rules net).sends v m y = true
    · rw [if_pos ⟨hx, hs⟩, if_pos hs]
      exact .cons hcarries .nil
    · rw [if_neg fun h => hs h.2, if_neg hs]
      exact .nil
  · rw [if_neg fun h => hx h.1, if_neg hx]
    exact .nil

theorem Sim.say (hsim : Sim net s t) {out : List (Nat × CStr)} {line : CStr} {body : Body}
    (hcarries : Carries net ⟨v, body⟩ line)
    (hout : ∀ w, linesTo (link net v w) out =
      if (rules net).sends v ⟨v, body⟩ w = true then [line] else []) :
    Sim net ((s.transmit net v out).say v body) (t.post (rules net) v ⟨v, body⟩) where
  wire := hsim.transmit hcarries hout
  said x := by
    show s.said x ++ (if x = v then [body] else []) =
      (ofSrc (rules net) x (t.log x ++ if x = v then [(⟨v, body⟩ : Msg V)] else [])).map Msg.body
    rw [TreeFlood.ofSrc_append, map_append, ← hsim.said x]
    by_cases hx : x = v
    · subst hx
      simp [ofSrc, rules]
    · simp [hx, ofSrc]
  heard x := by
    show s.heard x = (t.log x ++ if x = v then [(⟨v, body⟩ : Msg V)] else []).filterMap (callAt net x)
    rw [filterMap_append, ← hsim.heard x]
    by_cases hx : x = v
    · subst hx
      simp [callAt]
    · simp [hx]

theorem Sim.call (hsim : Sim net s t) {out : List (Nat × CStr)} {line : CStr}
    (hcarries : Carries net m line) (hsrc : m.src ≠ v)
    (hout : ∀ w, linesTo (link net v w) out =
      if (rules net).sends v m w = true then [line] else []) :
    Sim net ((s.transmit net v out).call v (callAt net v m).toList) (t.post (rules net) v m) where
  wire := hsim.transmit hcarries hout
  said x := by
    show s.said x = (ofSrc (rules net) x (t.log x ++ if x = v then [m] else [])).map Msg.body
    rw [TreeFlood.ofSrc_append, map_append, ← hsim.said x]
    by_cases hx : x = v
    · subst hx
      simp [ofSrc, rules, hsrc]
    · simp [hx, ofSrc]
  heard x := by
    show s.heard x ++ (if x = v then (callAt net v m).toList else []) =
      (t.log x ++ if x = v then [m] else []).filterMap (callAt net x)
    rw [filterMap_append, ← hsim.heard x]
    by_cases hx : x = v
    · subst hx
      cases hcall : callAt net x m <;> simp [hcall]
    · simp [hx]

theorem Sim.setWire (hsim : Sim net s t) {q : List (Msg V)} {q' : List CStr}
    (hq : Forall₂ (Carries net) q q') (u v : V) :
    Sim net (s.setWire u v q') (t.setWire u v q) where
  wire x y := by
    by_cases hxy : x = u ∧ y = v
    · simpa only [State.setWire, TreeFlood.State.setWire, if_pos hxy] using hq
    · simpa only [State.setWire, TreeFlood.State.setWire, if_neg hxy] using hsim.wire x y
  said := hsim.said
  heard := hsim.heard

theorem transmit_call_nil (s : State V) (v : V) : (s.transmit net v []).call v [] = s := by
  simp [State.transmit, State.call, linesTo]

namespace Settled

variable (h : Settled net R)

include h

theorem handle_eq (hnext : R.next v m.src = some u) {idx : Nat} (hidx : link net v u = some idx) :
    (net v).handle idx (name net m.src) m.body =
      if (rules net).takes u v m = true then
        .ok ⟨forward (net v) ((net v).net.nextbot (name net m.src)) (name net m.src) m.body,
          (callAt net v m).toList⟩
      else .ok ⟨[], []⟩ := by
  have hsrc : m.src ≠ v := by
    intro hv
    rw [hv, R.next_self] at hnext
    cases hnext
  have hback : (net v).net.nextbot (name net m.src) = some idx :=
    (h.nextbot_of_next hnext).trans hidx
  rcases m with ⟨src, body⟩
  cases body with
  | chat text =>
    have htakes : (rules net).takes u v ⟨src, .chat text⟩ = !(net v).isolate idx := by
      simp [rules, hidx]
    rw [htakes, Bot.handle, hback]
    cases hiso : (net v).isolate idx with
    | true => rfl
    | false =>
      rw [if_neg Bool.false_ne_true, if_neg (h.noAt src), if_neg fun hne => hne rfl]
      simp [callAt, hsrc, forward, Body.call]
  | zapf to_ par =>
    rw [Bot.handle, hback, if_neg fun hne => hne rfl]
    by_cases hme : strcaseEq to_ (net v).net.botnetnick = true
    · simp [rules, callAt, hsrc, forward, Body.call, name, hme]
    · simp [rules, callAt, hsrc, forward, name, hme]
  | zapfBroad opcode par =>
    rw [Bot.handle, hback, if_neg fun hne => hne rfl]
    simp [rules, callAt, hsrc, forward, Body.call]

omit [DecidableEq V] h in
theorem leftOver_eq_nil {came : Nat} {line : CStr} (hwhole : came ≤ lineMax ∨ line.length ≤ came) :
    leftOver came line = [] := by
  refine if_neg fun hsplit => ?_
  omega

theorem sim_read (hinv : TreeFlood.Inv (rules net) R t) (hsim : Sim net s t) {u v : V} {came : Nat}
    (hwhole : Whole s (.read u v came)) :
    ∃ s', step net s (.read u v came) = .ok s' ∧ Sim net s' (t.deliver (rules net) u v) := by
  have hwire := hsim.wire u v
  rw [TreeFlood.State.deliver]
  split
  · next hnil =>
    rw [hnil, forall₂_nil_left_iff] at hwire
    exact ⟨s, by simp [step, hwire], hsim⟩
  · next m q hq =>
    rw [hq] at hwire
    obtain ⟨line, q', hcarries, hq', hline⟩ := forall₂_cons_left_iff.1 hwire
    have hleft : leftOver came line = [] := leftOver_eq_nil (hwhole line (by rw [hline]; rfl))
    obtain ⟨hcomes, hs⟩ := hinv.sent (hq ▸ mem_cons_self)
    have hnext := hcomes.next_of_sends h.outward hs
    obtain ⟨idx, hidx⟩ := h.link_of_next hnext
    have hsim' := hsim.setWire hq' u v
    have hsrc : m.src ≠ v := by
      intro hv
      rw [show (rules net).src m = v from hv, R.next_self] at hnext
      cases hnext
    have hhandle := h.handle_eq hnext hidx
    by_cases ht : (rules net).takes u v m = true
    · rw [if_pos ht] at hhandle ⊢
      have hread : Carries net m (dprint (m.body.line (name net m.src))) :=
        ⟨readLine_line (h.inv m.src).me.1 (h.inv m.src).me.2 hcarries.2, hcarries.2⟩
      exact ⟨_, by simp only [step, hline, hidx, Bot.dccBot_eq hcarries.1, hhandle, hleft, nil_append],
        hsim'.call hread hsrc fun w => h.linesTo_forward v w m.src m.body⟩
    · rw [if_neg ht] at hhandle ⊢
      refine ⟨_, ?_, hsim'⟩
      simp only [step, hline, hidx, Bot.dccBot_eq hcarries.1, hhandle, hleft, nil_append,
        transmit_call_nil]

omit [DecidableEq V] in
theorem name_short (v : V) : (name net v).length + 4 ≤ lineMax := by
  have hlen := h.short v
  have hmax : lineMax = 4606 := rfl
  have hhand : handLen = 32 := rfl
  omega

theorem sim_dccbroadcast (hsim : Sim net s t) (v : V) (data : Line) :
    ∃ s', step net s (.dccbroadcast v data) = .ok s' ∧
      Sim net s' (t.post (rules net) v ⟨v, chatBody (name net v) data⟩) := by
  obtain ⟨hne, hword⟩ := (h.inv v).me
  refine ⟨_, rfl, hsim.say ⟨readLine_chatLine hne hword (h.name_short v) data,
    short_chatBody (h.name_short v) data⟩ fun w => ?_⟩
  rw [Bot.tclDccbroadcast, Bot.botnetSendChat, linesTo_of_empty fun hb => h.link_of_empty hb w,
    linesTo_sendTandBut, ← h.nextbot_self v]
  rfl

theorem sim_putallbots (hsim : Sim net s t) (v : V) (data : Line) :
    ∃ s', step net s (.putallbots v data) = .ok s' ∧
      Sim net s' (t.post (rules net) v ⟨v, zapfBroadBody (name net v) data⟩) := by
  obtain ⟨hne, hword⟩ := (h.inv v).me
  refine ⟨_, rfl, hsim.say ⟨readLine_zapfBroadLine hne hword (h.name_short v) data,
    short_zapfBroadBody (h.name_short v) data⟩ fun w => ?_⟩
  rw [Bot.tclPutallbots, Bot.botnetSendZapfBroad, linesTo_of_empty fun hb => h.link_of_empty hb w,
    linesTo_sendTandBut, ← h.nextbot_self v]
  rfl

omit [DecidableEq V] in
theorem word_of_nextbot {to_ : CStr} (hto : (net v).net.nextbot to_ = some i) :
    to_ ≠ [] ∧ ' ' ∉ to_ ∧ to_.length ≤ handLen := by
  obtain ⟨d, hd⟩ := h.dest_of_nextbot hto
  have hmap := rfcCaseEq_iff.1 hd
  have hlen : to_.length = (name net d).length := by simpa using congrArg length hmap
  obtain ⟨hne, hword⟩ := (h.inv d).me
  refine ⟨fun hnil => hne ?_, fun hmem => hword ?_, hlen ▸ h.short d⟩
  · rw [hnil, length_nil] at hlen
    exact length_eq_zero_iff.1 hlen.symm
  · have hblank : ' ' ∈ (name net d).map rfcToupper := hmap ▸ mem_map_of_mem (f := rfcToupper) hmem
    obtain ⟨c, hc, hfold⟩ := mem_map.1 hblank
    exact (AddrMatch.rfcToupper_eq_iff (by decide) c).1 hfold ▸ hc

theorem sim_putbot (hinv : TreeFlood.Inv (rules net) R t) (hsim : Sim net s t) (v : V)
    (to_ data : Line) :
    ∃ s' t', step net s (.putbot v to_ data) = .ok s' ∧ TreeFlood.Inv (rules net) R t' ∧
      Sim net s' t' := by
  obtain ⟨hne, hword⟩ := (h.inv v).me
  cases hto : (net v).net.nextbot to_ with
  | none => exact ⟨s, t, by simp only [step, Bot.tclPutbot, hto, Option.map_none], hinv, hsim⟩
  | some i =>
    obtain ⟨htone, htoword, htolen⟩ := h.word_of_nextbot hto
    have hmax : lineMax = 4606 := rfl
    have hhand : handLen = 32 := rfl
    have hlen : (name net v).length + to_.1.length + 4 ≤ lineMax := by
      have := h.short v
      omega
    have hcarries : Carries net ⟨v, zapfBody (name net v) to_ data⟩
        (dprint (Bot.zapfLine (name net v) to_ data)) :=
      ⟨readLine_zapfLine hne hword htone htoword hlen data, short_zapfBody htone htoword hlen data⟩
    -- nobody is told to send to himself
    have hme : ¬strcaseEq to_ (name net v) = true := by
      intro hme
      rw [PartyLine.nextbot_congr (rfcCaseEq_of_strcaseEq hme), h.nextbot_self] at hto
      cases hto
    have hsends (w : V) : (rules net).sends v ⟨v, zapfBody (name net v) to_ data⟩ w = true ↔
        link net v w = some i := by
      simp [rules, zapfBody, Option.any_eq_true, hto, hme]
    have hout (w : V) : linesTo (link net v w)
          (Bot.botnetSendZapf i (net v).net.botnetnick to_ data) =
        if (rules net).sends v ⟨v, zapfBody (name net v) to_ data⟩ w = true then
          [dprint (Bot.zapfLine (name net v) to_ data)] else [] := by
      rw [if_congr (hsends w) rfl rfl]
      by_cases hlink : link net v w = some i <;> simp [linesTo, Bot.botnetSendZapf, name, hlink]
    have hstep : step net s (.putbot v to_ data) =
        .ok ((s.transmit net v (Bot.botnetSendZapf i (net v).net.botnetnick to_ data)).say v
          (zapfBody (name net v) to_ data)) := by
      simp only [step, Bot.tclPutbot, hto, Option.map_some]
    exact ⟨_, _, hstep, hinv.say ⟨v, _⟩, hsim.say hcarries hout⟩

theorem sim_step (hinv : TreeFlood.Inv (rules net) R t) (hsim : Sim net s t) {e : Event V}
    (hwhole : Whole s e) :
    ∃ s' t', step net s e = .ok s' ∧ TreeFlood.Inv (rules net) R t' ∧ Sim net s' t' := by
  cases e with
  | dccbroadcast v data =>
    obtain ⟨s', hs', hsim'⟩ := h.sim_dccbroadcast hsim v data
    exact ⟨s', _, hs', hinv.say ⟨v, _⟩, hsim'⟩
  | putbot v to_ data => exact h.sim_putbot hinv hsim v to_ data
  | putallbots v data =>
    obtain ⟨s', hs', hsim'⟩ := h.sim_putallbots hsim v data
    exact ⟨s', _, hs', hinv.say ⟨v, _⟩, hsim'⟩
  | read u v came =>
    obtain ⟨s', hs', hsim'⟩ := h.sim_read hinv hsim hwhole
    exact ⟨s', _, hs', hinv.deliver h.outward u v, hsim'⟩

end Settled

theorem exists_sim (h : Settled net R) {es : List (Event V)}
    (hwhole : Machine.Along (step net) Whole .init es) :
    ∃ s, Machine.run (step net) .init es = .ok s ∧
      ∃ t, TreeFlood.Inv (rules net) R t ∧ Sim net s t := by
  have hstep : ∀ s e, (∃ t, TreeFlood.Inv (rules net) R t ∧ Sim net s t) → Whole s e →
      ∃ s', step net s e = .ok s' ∧ ∃ t, TreeFlood.Inv (rules net) R t ∧ Sim net s' t := by
    rintro s e ⟨t, hinv, hsim⟩ he
    obtain ⟨s', t', hs', hinv', hsim'⟩ := h.sim_step hinv hsim he
    exact ⟨s', hs', t', hinv', hsim'⟩
  exact Machine.run_ok_of_along hstep ⟨.init, TreeFlood.inv_init, sim_init⟩ hwhole

/-! ### Who gets a message -/

/-- The bot at the other end speaks the protocol. -/
def Neat (net : V → Bot) (u w : V) : Prop :=
  ∃ i ∈ link net u w, ∃ d ∈ (net u).net.dcc[i]?, NEAT_BOTNET ≤ d.numver

/-- The user of the link has `BOT_ISOLATE`. -/
def Isolated (net : V → Bot) (u w : V) : Prop := ∃ i ∈ link net u w, (net u).isolate i = true

/-- There is a way from one bot to another, all of whose links are `ok`. -/
def Way (R : Routes V) (ok : V → V → Prop) (a v : V) : Prop :=
  Relation.ReflTransGen (fun u w => R.next w a = some u ∧ ok u w) a v

/-- A message of the first bot is for the second one and comes to it. -/
def Gets (net : V → Bot) (R : Routes V) (a v : V) : Body → Prop
  | .chat _ => Way R (fun u w => Neat net u w ∧ ¬Isolated net u w ∧ ¬Isolated net w u) a v
  | .zapf to_ _ => strcaseEq to_ (name net v) = true
  | .zapfBroad _ _ => Way R (Neat net) a v

omit [DecidableEq V] in
theorem comes_iff_way (h : Settled net R) {ok : V → V → Prop} {body : Body}
    (hok : ∀ u w, R.next w a = some u →
      ((rules net).sends u ⟨a, body⟩ w = true ∧ (rules net).takes u w ⟨a, body⟩ = true ↔ ok u w)) :
    TreeFlood.Comes (rules net) ⟨a, body⟩ v ↔ Way R ok a v := by
  constructor
  · intro hcomes
    induction hcomes with
    | said => exact .refl
    | hop hu hs ht ih =>
      have hnext := hu.next_of_sends h.outward hs
      exact ih.tail ⟨hnext, (hok _ _ hnext).1 ⟨hs, ht⟩⟩
  · intro hway
    induction hway with
    | refl => exact .said
    | tail _ hlast ih =>
      obtain ⟨hs, ht⟩ := (hok _ _ hlast.1).2 hlast.2
      exact .hop ih hs ht

omit [DecidableEq V] in
theorem any_sendsTo (h : Settled net R) (hnext : R.next w a = some u) (iso : Bool) :
    (link net u w).any ((net u).sendsTo ((net u).net.nextbot (name net a)) iso) = true ↔
      Neat net u w ∧ (iso = true → ¬Isolated net u w) := by
  have haway : R.next u a ≠ some w := by
    intro hback
    have h1 := R.closer hnext
    have h2 := R.closer hback
    omega
  cases hlink : link net u w with
  | none =>
    have hnone := R.next_back hnext
    rw [← h.linked, hlink] at hnone
    cases hnone
  | some i =>
    obtain ⟨d, hd, -, htype⟩ := link_eq_some hlink
    have hx : (net u).net.nextbot (name net a) ≠ some i := fun hx =>
      haway ((h.nextbot_eq_link hlink).1 hx)
    cases iso <;> simp [Neat, Isolated, hlink, Bot.sendsTo, hd, htype, hx]

/-- A message is heard by a bot exactly if it comes to it and is for it. -/
theorem gets_iff (h : Settled net R) (hv : a ≠ v) (body : Body) :
    (TreeFlood.Comes (rules net) ⟨a, body⟩ v ∧ (callAt net v ⟨a, body⟩).isSome = true) ↔
      Gets net R a v body := by
  cases body with
  | chat text =>
    have hcall : (callAt net v ⟨a, .chat text⟩).isSome = true := by simp [callAt, hv]
    rw [and_iff_left hcall, Gets]
    refine comes_iff_way h fun u w hnext => ?_
    have hsends : (rules net).sends u ⟨a, .chat text⟩ w = true ↔
        Neat net u w ∧ (true = true → ¬Isolated net u w) := any_sendsTo h hnext true
    have hiso : (link net w u).any (net w).isolate = true ↔ Isolated net w u :=
      Option.any_eq_true _ _
    have htakes : (rules net).takes u w ⟨a, .chat text⟩ = true ↔ ¬Isolated net w u := by
      rw [← hiso]
      simp [rules]
    rw [hsends, htakes, and_assoc]
    simp
  | zapfBroad opcode par =>
    have hcall : (callAt net v ⟨a, .zapfBroad opcode par⟩).isSome = true := by simp [callAt, hv]
    rw [and_iff_left hcall, Gets]
    refine comes_iff_way h fun u w hnext => ?_
    have hsends : (rules net).sends u ⟨a, .zapfBroad opcode par⟩ w = true ↔
        Neat net u w ∧ (false = true → ¬Isolated net u w) := any_sendsTo h hnext false
    rw [hsends]
    simp [rules]
  | zapf to_ par =>
    have hcall : (callAt net v ⟨a, .zapf to_ par⟩).isSome = true ↔
        strcaseEq to_ (name net v) = true := by
      by_cases hto : strcaseEq to_ (name net v) = true <;> simp [callAt, hv, hto]
    rw [hcall, Gets]
    refine and_iff_right_of_imp fun hto => ?_
    have hrfc := rfcCaseEq_of_strcaseEq hto
    refine TreeFlood.comes_dest (R := R) (fun u w hnext => ?_) fun u => h.connected u v
    -- a bot on the way is not the one meant
    have hne : ¬strcaseEq to_ (name net u) = true := by
      intro hu
      rw [rfcCaseEq_comm] at hrfc
      obtain rfl := h.name_inj v u (rfcCaseEq_trans hrfc (rfcCaseEq_of_strcaseEq hu))
      rw [R.next_self] at hnext
      cases hnext
    obtain ⟨i, hi⟩ := h.link_of_next hnext
    have hto' : (net u).net.nextbot to_ = some i := by
      rw [PartyLine.nextbot_congr hrfc, h.nextbot_of_next hnext, hi]
    simp [rules, hi, hto', hne]

open Classical in
/-- What a bot is to hear of another one. -/
noncomputable def due (net : V → Bot) (R : Routes V) (s : State V) (a v : V) : List Call :=
  ((s.said a).filter fun body => Gets net R a v body).map (Body.call (name net a))

/-- What a bot has heard of another one. -/
def heardFrom (net : V → Bot) (s : State V) (a v : V) : List Call :=
  (s.heard v).filter fun c => c.from = name net a

theorem src_ne_of_callAt {c : Call} (hc : callAt net v m = some c) : m.src ≠ v := by
  intro hsrc
  rw [callAt, if_pos hsrc] at hc
  cases hc

theorem eq_call_of_callAt {c : Call} (hc : callAt net v m = some c) :
    c = m.body.call (name net m.src) := by
  rw [callAt, if_neg (src_ne_of_callAt hc)] at hc
  rcases m with ⟨src, body⟩
  cases body with
  | chat text => exact (Option.some.inj hc).symm
  | zapfBroad opcode par => exact (Option.some.inj hc).symm
  | zapf to_ par =>
    dsimp only at hc
    split_ifs at hc
    exact (Option.some.inj hc).symm

theorem from_of_callAt {c : Call} (hc : callAt net v m = some c) : c.from = name net m.src := by
  rw [eq_call_of_callAt hc]
  cases m.body <;> rfl

theorem Sim.heardFrom_eq (hsim : Sim net s t) (h : Settled net R) (a v : V) :
    heardFrom net s a v = (ofSrc (rules net) a (t.log v)).filterMap (callAt net v) := by
  rw [heardFrom, hsim.heard v, ofSrc, filter_filterMap, filterMap_filter]
  refine filterMap_congr fun m _ => ?_
  cases hc : callAt net v m with
  | none => simp
  | some c =>
    have hname : name net m.src = name net a ↔ m.src = a :=
      ⟨fun heq => h.name_inj _ _ (heq ▸ rfcCaseEq_refl _), fun heq => heq ▸ rfl⟩
    by_cases hsrc : m.src = a <;> simp [from_of_callAt hc, hname, hsrc, rules]

open Classical in
theorem filterMap_comes (h : Settled net R) (hv : a ≠ v) {l : List (Msg V)}
    (hl : ∀ m ∈ l, m.src = a) :
    (l.filter fun m => TreeFlood.Comes (rules net) m v).filterMap (callAt net v) =
      ((l.map Msg.body).filter fun body => Gets net R a v body).map (Body.call (name net a)) := by
  induction l with
  | nil => rfl
  | cons m l ih =>
    rcases m with ⟨src, body⟩
    obtain rfl : src = a := hl _ mem_cons_self
    have hgets := gets_iff h hv body
    have ih := ih fun m hm => hl m (mem_cons_of_mem _ hm)
    rw [map_cons, filter_cons, filter_cons]
    by_cases hcomes : TreeFlood.Comes (rules net) ⟨src, body⟩ v
    · rw [if_pos (decide_eq_true hcomes), filterMap_cons]
      cases hc : callAt net v ⟨src, body⟩ with
      | none =>
        have hno : ¬Gets net R src v body := fun hg => by simp [hc] at hgets; exact hgets hg
        simpa [hno] using ih
      | some c =>
        have hyes : Gets net R src v body := hgets.1 ⟨hcomes, by rw [hc, Option.isSome_some]⟩
        simpa [hyes, eq_call_of_callAt hc] using ih
    · have hno : ¬Gets net R src v body := fun hg => hcomes (hgets.2 hg).1
      simpa [hcomes, hno] using ih

end Settled

/-! ### Three bots -/

/-- Two bots are linked to the hub. -/
inductive Trio where
  | hub | east | west
deriving DecidableEq

instance : Fintype Trio := ⟨{.hub, .east, .west}, fun v => by cases v <;> decide⟩

/-- A bot next to the hub, which has told of the other one. -/
def besideHub (me other : CStr) : Botnet :=
  let s := (Botnet.start me).linked "hub".toList 1090000
  s.fromBot 0 fun d => s.botNlinked 0 d (other ++ " hub -AQoO".toList) false

/-- The hub has set `BOT_ISOLATE` for the second link. -/
def trio (v : Trio) : Bot :=
  ⟨match v with
    | .hub => ((Botnet.start "hub".toList).linked "east".toList 1090000).linked "west".toList 1090000
    | .east => besideHub "east".toList "west".toList
    | .west => besideHub "west".toList "east".toList,
    fun i => v = .hub ∧ i = 1⟩

def trioRoutes : TreeFlood.Routes Trio where
  next v a := if v = a then none else if v = .hub then some a else some .hub
  dist v a := if v = a then 0 else if v = .hub ∨ a = .hub then 1 else 2
  next_self := by decide
  closer {v a u} := by
    revert v a u
    decide
  adjacent {v a u} := by
    revert v a u
    decide
  away {u v a} := by
    revert u v a
    decide

theorem inv_besideHub {me other : CStr} (hme : me ≠ [] ∧ ' ' ∉ me)
    (hhub : (Botnet.start me).inChain "hub".toList = false)
    (hforeign : rfcCaseEq "hub".toList me = false)
    (hsafe : Botnet.Safe ((Botnet.start me).linked "hub".toList 1090000)
      (.nlinked 0 (other ++ " hub -AQoO".toList) false)) :
    Botnet.Inv Sayable (besideHub me other) := by
  have hinv := (Botnet.inv_start Sayable hme).linked hhub hforeign (by decide) 1090000
  obtain ⟨s', hs', hinv'⟩ := Botnet.step_ok hinv hsafe
  obtain rfl : besideHub me other = s' := Except.ok.inj hs'
  exact hinv'

theorem inv_trio (v : Trio) : Botnet.Inv Sayable (trio v).net := by
  cases v with
  | hub =>
    exact ((Botnet.inv_start Sayable (by decide)).linked (by decide) (by decide) (by decide) _).linked
      (by decide +kernel) (by decide) (by decide) _
  | east =>
    exact @inv_besideHub "east".toList "west".toList (by decide) (by decide) (by decide)
      (by decide +kernel)
  | west =>
    exact @inv_besideHub "west".toList "east".toList (by decide) (by decide) (by decide)
      (by decide +kernel)

theorem settled_trio : Settled trio trioRoutes where
  inv := inv_trio
  short := by decide +kernel
  noAt := by decide +kernel
  name_inj := by decide +kernel
  known := by decide +kernel
  nextbot := by decide +kernel
  linked := by decide +kernel
  connected := by decide

instance (s : State V) : ∀ e, Decidable (Whole s e)
  | .read u v came =>
    inferInstanceAs (Decidable (∀ line ∈ (s.wire u v).head?, came ≤ lineMax ∨ line.length ≤ came))
  | .dccbroadcast _ _ | .putbot _ _ _ | .putallbots _ _ => isTrue trivial

/-- Each bot says something; the lines are read in no special order. -/
def trioTalk : List (Event Trio) :=
  [.dccbroadcast .east ⟨"hello".toList, by decide⟩,
    .putallbots .hub ⟨"set topic off".toList, by decide⟩,
    .putbot .west ⟨"EAST".toList, by decide⟩ ⟨"ask for ops".toList, by decide⟩,
    .read .hub .west 24, .read .west .hub 10, .read .east .hub 13, .read .hub .east 24,
    .read .hub .east 24]

/-- What the users of the second bot are told does not go over the isolated link. -/
example : ∀ s, Machine.run (step trio) .init trioTalk = .ok s →
    s.heard .hub = [.bcst "east".toList "hello".toList] ∧
    s.heard .east = [.bot "hub".toList "set".toList "topic off".toList,
      .bot "west".toList "ask".toList "for ops".toList] ∧
    s.heard .west = [.bot "hub".toList "set".toList "topic off".toList] := by
  decide +kernel

end Messages
end Eggdrop.Tandem
