import ScaleTail.Proof.TKA.Sync
import ScaleTail.Proof.TKA.Confluence
import ScaleTail.Proof.TKA.Atomicity
import ScaleTail.Proof.TKA.Builder
import ScaleTail.Proof.TKA.Revocation
import ScaleTail.Proof.TKA.Signature
import ScaleTail.Proof.TKA.Equivalence
import ScaleTail.Proof.Net.Caps
import ScaleTail.Proof.Net.Decode
import ScaleTail.Proof.Control.AccountAuth
import ScaleTail.Proof.OTA.Message
import ScaleTail.Proof.OTA.Gate
import ScaleTail.Proof.Netmap.Disco
import ScaleTail.Proof.Netmap.Queue
import ScaleTail.Proof.Netmap.Watch
import ScaleTail.Proof.Relay.Reuse
import ScaleTail.Proof.Derp.PeerGone
import ScaleTail.Proof.Derp.Mesh
import ScaleTail.Proof.Conn25.Refuse
import ScaleTail.Proof.Conn25.Path
import ScaleTail.Proof.Natc.Marks
import ScaleTail.Proof.Taildrop.Deleter
import ScaleTail.Proof.Taildrop.InUse
import ScaleTail.Proof.Eventbus.Close
import ScaleTail.Proof.Tstun.PeerConfig
import ScaleTail.Proof.Appc.Routes
import ScaleTail.Proof.Util.Cmpver
import ScaleTail.Proof.Util.Reload
import ScaleTail.Proof.Noise.Session
import ScaleTail.Magicsock.Quality
