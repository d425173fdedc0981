import Mathlib.Data.List.Induction
import Eggdrop.Botnet.Tree

/-!
# DumpLinks — a new bot learns the tree

* `Tree`: what the pointers of the list mean.
* `Replays`: the messages of `dump_links` pass the checks of a bot that has just linked, and give
  it the same tree below us.
* `tree_throughout`: both hold in every state of every run of safe steps.
-/

namespace Eggdrop.Tandem
namespace Botnet

variable {s p p' : Botnet} {who : CStr} {t u : Tand}

/-! ### Parsing a dumped line -/

theorem nlinkedWords_line {a b : CStr} (rest : CStr) (ha : a ≠ []) (ha' : ' ' ∉ a) (hb : b ≠ [])
    (hb' : ' ' ∉ b) : nlinkedWords (a ++ ' ' :: (b ++ ' ' :: rest)) = (a, b, rest) := by
  rw [nlinkedWords, newsplit_word _ ha ha', newsplit_word _ hb hb']

/-! ### The tree and its copy -/

/-- No name occurs twice; an entry hangs from this bot or from an earlier entry; and `via` is the
first hop on the way to it. -/
structure Tree (s : Botnet) : Prop where
  names : s.tandbot.Pairwise fun a b => strcaseEq a.bot b.bot = false
  uplinks : ∀ pre t post, s.tandbot = pre ++ t :: post →
    t.uplink = .me ∨ ∃ u ∈ pre, t.uplink = .bot u.id
  via : ∀ t ∈ s.tandbot, ∃ h ∈ s.tandbot, pointers.FirstHop s.tandbot t h ∧ t.via = some h.id

/-- Each bot with the bot it hangs from; `root` is the name of this bot. -/
def tree (root : CStr) (s : Botnet) : List (CStr × CStr) :=
  s.tandbot.map fun t => (t.bot, s.uplinkName root t)

/-- An `n` message over the first link, if it passes the checks. -/
def receive (p : Botnet) (par : CStr) : Option Botnet :=
  match p.nlinkedRefusal 0 (nlinkedWords par).1 (nlinkedWords par).2.1 false with
  | some _ => none
  | none => some (p.fromBot 0 fun d => p.botNlinked 0 d par false)

/-- The bot `peer`, to which the bot `me` has just linked. -/
def freshPeer (peer me : CStr) (numver : Int) : Botnet := (start peer).linked me numver

/-- A bot that may link gets the tree: all messages pass its checks, and its tree is ours, with
ours hung below it. -/
def Replays (s : Botnet) : Prop :=
  ∀ peer me numver, Sayable peer → s.inChain peer = false →
    rfcCaseEq peer s.botnetnick = false → strcaseEq me s.botnetnick = true →
      ∃ p, s.dumpLinks.foldlM receive (freshPeer peer me numver) = some p ∧
        p.tree peer = (me, peer) :: s.tree me

theorem Inv.tree {ok : CStr → Prop} (h : Inv ok s) : Tree s where
  names := h.names.imp fun hab => by
    rw [← Bool.not_eq_true] at hab ⊢
    exact fun heq => hab (rfcCaseEq_of_strcaseEq heq)
  uplinks pre t post hsplit := by
    rcases h.forest.hangs_of_split hsplit with ⟨htop, -, -⟩ | ⟨u, hu, hpar, -⟩
    · exact .inl htop
    · exact .inr ⟨u, hu, parent_eq_some.1 hpar⟩
  via t ht := h.forest.firstHop ht

/-- The peer while it is told the tree: its list is `me` and the entries told so far, all of them
behind `me`. -/
structure Told (peer me : CStr) (told : List (CStr × CStr)) (p : Botnet) : Prop where
  inv : Inv (fun _ => True) p
  nick : p.botnetnick = peer
  link : ∃ d, p.dcc = [d] ∧ d.type = .bot ∧ d.nick = me
  tree : p.tree peer = (me, peer) :: told
  first : ∃ m ∈ p.tandbot, m.bot = me ∧ ∀ t ∈ p.tandbot, t.via = some m.id

variable {ok : CStr → Prop} {peer me : CStr} {told : List (CStr × CStr)}

theorem uplinkName_of_bot (h : Inv ok s) (root : CStr) (hu : u ∈ s.tandbot)
    (hup : t.uplink = .bot u.id) : s.uplinkName root t = u.bot := by
  simp only [uplinkName, hup, h.deref_of_mem hu, Option.map_some, Option.getD_some]

theorem tree_addbot (h : Inv ok s) {from_ next : CStr} {flag : Char} {vernum : Int}
    (h' : Inv ok (s.addbot who from_ next flag vernum)) (root : CStr) :
    (s.addbot who from_ next flag vernum).tree root = s.tree root ++
      [(who, (s.addbot who from_ next flag vernum).uplinkName root
        (s.entryOf who from_ next flag vernum))] := by
  rw [Botnet.tree, tandbot_addbot, List.map_append]
  congr 1
  refine List.map_congr_left fun t ht => ?_
  cases hup : t.uplink with
  | me => simp only [uplinkName, hup]
  | null => simp only [uplinkName, hup]
  | bot i =>
    obtain ⟨u, hu, rfl, -, -⟩ := h.forest.parent_mem ht (parent_eq_some.2 hup)
    have hu' : u ∈ (s.addbot who from_ next flag vernum).tandbot := List.mem_append_left _ hu
    rw [uplinkName_of_bot h root hu hup, uplinkName_of_bot h' root hu' hup]

theorem Told.bot_mem (hp : Told peer me told p) {a : CStr} :
    (∃ m ∈ p.tandbot, m.bot = a) ↔ a = me ∨ ∃ x ∈ told, x.1 = a := by
  have hmap : p.tandbot.map (·.bot) = me :: told.map (·.1) := by
    have htree := congrArg (List.map Prod.fst) hp.tree
    rw [Botnet.tree, List.map_map] at htree
    exact htree
  rw [← List.mem_map, hmap, List.mem_cons, List.mem_map]

theorem Told.receive_line (hp : Told peer me told p) {a b : CStr} (rest : CStr) (ha : Sayable a)
    (hno : ∀ m ∈ p.tandbot, rfcCaseEq a m.bot = false) (hpeer : rfcCaseEq a peer = false)
    (hb : b ≠ []) (hb' : ' ' ∉ b) {m : Tand} (hm : m ∈ p.tandbot)
    (hbm : rfcCaseEq b m.bot = true) :
    ∃ p', receive p (a ++ ' ' :: (b ++ ' ' :: rest)) = some p' ∧
      Told peer me (told ++ [(a, m.bot)]) p' := by
  obtain ⟨d, hdcc, hbot, hdnick⟩ := hp.link
  obtain ⟨v, hv, hvme, hfirst⟩ := hp.first
  have hd : p.dcc[0]? = some d := by rw [hdcc]; rfl
  have hfind := hp.inv.findbot_eq_some.2 ⟨m, hm, rfl, hbm⟩
  have hnone := hp.inv.findbot_eq_none.2 hno
  have hnext : p.nextbot b = some 0 := by
    simp only [nextbot, hfind, hp.inv.deref_of_mem hm, hfirst m hm, hp.inv.deref_of_mem hv,
      Option.bind_eq_bind, Option.bind_some, hdcc]
    simp [hvme, hdnick, hbot]
  have hin : p.inChain a = false := by
    rw [inChain, hnone, hp.nick, Option.isSome_none, Bool.false_or, ← Bool.not_eq_true]
    intro heq
    rw [rfcCaseEq_of_strcaseEq heq] at hpeer
    cases hpeer
  have hrefusal : p.nlinkedRefusal 0 a b false = none :=
    nlinkedRefusal_eq_none.2 ⟨rfl, hb, hin, ha.plain, ha.short, hnext⟩
  have hwords := nlinkedWords_line rest ha.nonempty ha.word hb hb'
  -- the message comes down to one call of `addbot`
  obtain ⟨flag, vernum, hadd⟩ : ∃ flag vernum,
      receive p (a ++ ' ' :: (b ++ ' ' :: rest)) = some (p.addbot a d.nick b flag vernum) := by
    refine ⟨if rest.head?.getD '-' = '!' then '-' else rest.head?.getD '-',
      base64ToInt rest.tail, ?_⟩
    simp only [Botnet.receive, hwords, hrefusal, fromBot, hd, hbot, if_true, botNlinked]
  have hinv : Inv (fun _ => True) (p.addbot a d.nick b flag vernum) :=
    hp.inv.addbot hnone (hp.nick.symm ▸ hpeer) trivial (hp.inv.hangs_nlinked hd hnone hnext)
  have hfindb : (p.addbot a d.nick b flag vernum).findbot b = some m.id := by
    rw [findbot_addbot, if_neg, hfind]
    intro heq
    rw [findbot_congr heq, hnone] at hfind
    cases hfind
  have hfindme : (p.addbot a d.nick b flag vernum).findbot d.nick = some v.id := by
    have hdv : rfcCaseEq d.nick v.bot = true := by rw [hdnick, hvme, rfcCaseEq_refl]
    have hfindd := hp.inv.findbot_eq_some.2 ⟨v, hv, rfl, hdv⟩
    rw [findbot_addbot, if_neg, hfindd]
    intro heq
    rw [findbot_congr heq, hnone] at hfindd
    cases hfindd
  have hbpeer : strcaseEq b p.botnetnick = false := by
    rw [← Bool.not_eq_true]
    intro heq
    have hforeign := hp.inv.foreign m hm
    rw [← rfcCaseEq_congr_left hbm, rfcCaseEq_of_strcaseEq heq] at hforeign
    cases hforeign
  refine ⟨_, hadd, hinv, hp.nick, ⟨d, hdcc, hbot, hdnick⟩, ?_,
    v, List.mem_append_left _ hv, hvme, fun t ht => ?_⟩
  · rw [tree_addbot hp.inv hinv, hp.tree, List.cons_append]
    have hup : (p.entryOf a d.nick b flag vernum).uplink = .bot m.id := by
      simp only [entryOf, hbpeer, hfindb]
      rfl
    rw [uplinkName_of_bot hinv peer (List.mem_append_left _ hm) hup]
  · rcases List.mem_append.1 ht with ht | ht
    · exact hfirst t ht
    · rw [List.mem_singleton.1 ht]
      exact hfindme

theorem told_freshPeer (numver : Int) (hpeer : Sayable peer) (hme : rfcCaseEq me peer = false) :
    Told peer me [] (freshPeer peer me numver) := by
  have hstart : Inv (fun _ => True) ((start peer).addbot me me peer '-' numver) :=
    (inv_start _ ⟨hpeer.nonempty, hpeer.word⟩).addbot rfl hme trivial (hangs_direct me '-' numver)
  have hvia : ((start peer).addbot me me peer '-' numver).findbot me = some 0 := by
    rw [findbot_addbot, if_pos (rfcCaseEq_refl me)]
    rfl
  refine ⟨hstart.withDcc _, rfl, ⟨_, rfl, rfl, rfl⟩, ?_, (start peer).entryOf me me peer '-' numver,
    List.mem_singleton_self _, rfl, fun t ht => ?_⟩
  · simp [Botnet.tree, freshPeer, linked, tandbot_addbot, uplinkName, entryOf, start]
  · rw [List.mem_singleton.1 ht]
    exact hvia

theorem Inv.told_prefix (h : Inv Sayable s) (numver : Int) (hsay : Sayable peer)
    (hpeer : s.inChain peer = false) (hforeign : rfcCaseEq peer s.botnetnick = false)
    (hme : strcaseEq me s.botnetnick = true)
    {pre post : List Tand} (hsplit : s.tandbot = pre ++ post) :
    ∃ p, (pre.map fun t => t.bot ++ ' ' :: (s.uplinkName s.botnetnick t ++
        ' ' :: t.share :: intToBase64 t.ver)).foldlM Botnet.receive (freshPeer peer me numver) = some p ∧
      Told peer me (pre.map fun t => (t.bot, s.uplinkName me t)) p := by
  have hme' := rfcCaseEq_of_strcaseEq hme
  induction pre using List.reverseRecOn generalizing post with
  | nil =>
    refine ⟨_, rfl, told_freshPeer numver hsay ?_⟩
    rw [rfcCaseEq_congr_left hme', rfcCaseEq_comm]
    exact hforeign
  | append_singleton pre t ih =>
    rw [List.append_assoc, List.singleton_append] at hsplit
    obtain ⟨p, hfold, hp⟩ := ih hsplit
    have ht : t ∈ s.tandbot := by rw [hsplit]; simp
    have hsub (u : Tand) (hu : u ∈ pre) : u ∈ s.tandbot := by
      rw [hsplit]
      exact List.mem_append_left _ hu
    have hno : ∀ m ∈ p.tandbot, rfcCaseEq t.bot m.bot = false := by
      intro m hm
      rcases hp.bot_mem.1 ⟨m, hm, rfl⟩ with hm | ⟨x, hx, hxm⟩
      · rw [hm, rfcCaseEq_comm, rfcCaseEq_congr_left hme', rfcCaseEq_comm]
        exact h.foreign t ht
      · obtain ⟨u, hu, rfl⟩ := List.mem_map.1 hx
        have hnames := h.names
        rw [hsplit, List.pairwise_append] at hnames
        rw [← hxm, rfcCaseEq_comm]
        exact hnames.2.2 u hu t List.mem_cons_self
    have htpeer : rfcCaseEq t.bot peer = false := by
      rw [rfcCaseEq_comm]
      exact h.findbot_eq_none.1 (inChain_eq_false hpeer).1 t ht
    -- what `t` hangs from was told before it
    obtain ⟨m, hm, hbm, hnext, hnext'⟩ : ∃ m ∈ p.tandbot,
        rfcCaseEq (s.uplinkName s.botnetnick t) m.bot = true ∧ s.uplinkName me t = m.bot ∧
          (s.uplinkName s.botnetnick t ≠ [] ∧ ' ' ∉ s.uplinkName s.botnetnick t) := by
      rcases h.forest.hangs_of_split hsplit with ⟨htop, -, -⟩ | ⟨u, hu, hpar, -⟩
      · have hup : t.uplink = .me := htop
        obtain ⟨m, hm, hmme⟩ := hp.bot_mem.2 (.inl rfl)
        refine ⟨m, hm, ?_, ?_, ?_⟩
        · simp only [uplinkName, hup, hmme]
          rw [rfcCaseEq_comm]
          exact hme'
        · simp only [uplinkName, hup, hmme]
        · simp only [uplinkName, hup]
          exact h.me
      · have hup := parent_eq_some.1 hpar
        obtain ⟨m, hm, hmu⟩ := hp.bot_mem.2 (.inr ⟨_, List.mem_map_of_mem hu, rfl⟩)
        have hu' := h.named u (hsub u hu)
        refine ⟨m, hm, ?_⟩
        rw [uplinkName_of_bot h _ (hsub u hu) hup, uplinkName_of_bot h _ (hsub u hu) hup, hmu]
        exact ⟨rfcCaseEq_refl _, rfl, hu'.nonempty, hu'.word⟩
    obtain ⟨p', hrec, hp'⟩ := hp.receive_line (t.share :: intToBase64 t.ver) (h.named t ht) hno htpeer
      hnext'.1 hnext'.2 hm hbm
    refine ⟨p', ?_, ?_⟩
    · rw [List.map_append, List.foldlM_append, hfold]
      simpa using hrec
    · rw [List.map_append, List.map_singleton, hnext]
      exact hp'

theorem Inv.replays (h : Inv Sayable s) : Replays s := by
  intro peer me numver hsay hpeer hforeign hme
  obtain ⟨p, hfold, hp⟩ := h.told_prefix numver hsay hpeer hforeign hme
    (List.append_nil s.tandbot).symm
  exact ⟨p, hfold, hp.tree⟩

/-! ### Runs -/

/-- From a list that is in order, in every run of safe steps none faults, the list is a tree
throughout, and a bot that links learns it. -/
theorem tree_throughout (h : Inv Sayable s) (es : List Event)
    (hsafe : Machine.Along step Safe s es) :
    (∃ s', Machine.run step s es = .ok s') ∧
      Machine.Throughout step (fun s => Tree s ∧ Replays s) s es := by
  obtain ⟨hrun, hall⟩ := Machine.run_throughout_of_along (fun _ _ hs he => step_ok hs he) h hsafe
  exact ⟨hrun, hall.imp fun s hs => ⟨hs.tree, hs.replays⟩⟩

instance (s : Botnet) (who : CStr) : Decidable (s.LeavesNone who) :=
  inferInstanceAs (Decidable (∀ t ∈ s.tandbot, _ → ∀ u ∈ s.tandbot, _))

instance (s : Botnet) : ∀ e, Decidable (Safe s e)
  | .version idx _ => inferInstanceAs (Decidable (∀ d ∈ s.dcc[idx]?, _ → _ → _))
  | .nlinked idx _ _ => inferInstanceAs (Decidable (∀ d ∈ s.dcc[idx]?, _ → _ → _))
  | .botunlink nick _ =>
    inferInstanceAs (Decidable (_ → _ → ∀ b ∈ s.findbot nick >>= s.deref, s.LeavesNone b.bot))
  | .reject _ => inferInstanceAs (Decidable (_ → _ → _ → _))
  | .connect _ | .unlinked _ _ | .update _ | .thisbot _ _ | .lost _ =>
    inferInstanceAs (Decidable True)

/-- Behind a link a chain of two bots, and the loss of the first of the two. -/
theorem tree_chain :
    (∃ s', Machine.run step ((start "hub".toList).linked "leaf".toList 1100000)
      [.nlinked 0 "a leaf -A".toList false, .nlinked 0 "b a -A".toList false,
        .unlinked 0 "a gone".toList] = .ok s') ∧
    Machine.Throughout step (fun s => Tree s ∧ Replays s)
      ((start "hub".toList).linked "leaf".toList 1100000)
      [.nlinked 0 "a leaf -A".toList false, .nlinked 0 "b a -A".toList false,
        .unlinked 0 "a gone".toList] :=
  tree_throughout ((inv_start Sayable (by decide)).linked (by decide) (by decide) (by decide) _) _
    (by decide +kernel)

/-- A bot links, and the version line is the last that is read. -/
theorem not_tree_link :
    ¬ ((∃ s', Machine.run step (start "hub".toList)
      [.connect "leaf".toList, .version 0 "1100000 32 v".toList] = .ok s') ∧
    Machine.Throughout step (fun s => Tree s ∧ Replays s) (start "hub".toList)
      [.connect "leaf".toList, .version 0 "1100000 32 v".toList]) := by
  rintro ⟨⟨s', hrun⟩, -⟩
  have hfault : Machine.run step (start "hub".toList)
      [.connect "leaf".toList, .version 0 "1100000 32 v".toList] = .error .zeroedBuffer := rfl
  rw [hfault] at hrun
  cases hrun

end Botnet
end Eggdrop.Tandem
