import FileCourier.Action
import FileCourier.Attempt
import FileCourier.ByteMap
import FileCourier.Bytes
import FileCourier.Cache
import FileCourier.Cache.Making
import FileCourier.Chores
import FileCourier.Cipher.Aes
import FileCourier.Cipher.Chain
import FileCourier.Cipher.Envelope
import FileCourier.Cipher.KeyFile
import FileCourier.Console
import FileCourier.Courier
import FileCourier.Digest
import FileCourier.Digest.Hashes
import FileCourier.Disk
import FileCourier.Download
import FileCourier.Fault
import FileCourier.Gzip
import FileCourier.Gzip.Code
import FileCourier.Gzip.Inflate
import FileCourier.Gzip.Shorten
import FileCourier.LocalRoots
import FileCourier.MasterFiles
import FileCourier.MasterLink
import FileCourier.Message
import FileCourier.Message.Wire
import FileCourier.Path
import FileCourier.Program
import FileCourier.Proofs.Action
import FileCourier.Proofs.Attempt
import FileCourier.Proofs.Cache.Building
import FileCourier.Proofs.Cache.Course
import FileCourier.Proofs.Cache.Founding
import FileCourier.Proofs.Cache.Kept
import FileCourier.Proofs.Cache.Laying
import FileCourier.Proofs.Cache.Listing
import FileCourier.Proofs.Cache.LocalFiles
import FileCourier.Proofs.Cache.Making
import FileCourier.Proofs.Cache.Permissions
import FileCourier.Proofs.Cache.Places
import FileCourier.Proofs.Cache.Putting
import FileCourier.Proofs.Cache.Settling
import FileCourier.Proofs.Cache.Spelling
import FileCourier.Proofs.Cache.Taking
import FileCourier.Proofs.Cache.Turns
import FileCourier.Proofs.Cipher.Aes
import FileCourier.Proofs.Cipher.Base64
import FileCourier.Proofs.Cipher.Chain
import FileCourier.Proofs.Cipher.Envelope
import FileCourier.Proofs.Cipher.Feed
import FileCourier.Proofs.Cipher.KeyFile
import FileCourier.Proofs.Console
import FileCourier.Proofs.Console.Commands
import FileCourier.Proofs.CopyRoot
import FileCourier.Proofs.Courier.Absorbing
import FileCourier.Proofs.Courier.Answered
import FileCourier.Proofs.Courier.Caching
import FileCourier.Proofs.Courier.Confinement
import FileCourier.Proofs.Courier.Copying
import FileCourier.Proofs.Courier.Directing
import FileCourier.Proofs.Courier.Errands
import FileCourier.Proofs.Courier.Failing
import FileCourier.Proofs.Courier.Gathering
import FileCourier.Proofs.Courier.Permissions
import FileCourier.Proofs.Courier.Reaching
import FileCourier.Proofs.Courier.Stale
import FileCourier.Proofs.Courier.States
import FileCourier.Proofs.Courier.Stocking
import FileCourier.Proofs.Courier.Templates
import FileCourier.Proofs.Courier.Timeouts
import FileCourier.Proofs.Courier.TwoSources
import FileCourier.Proofs.Disk.Changes
import FileCourier.Proofs.Disk.Copying
import FileCourier.Proofs.Disk.Directories
import FileCourier.Proofs.Disk.Entries
import FileCourier.Proofs.Disk.Exploring
import FileCourier.Proofs.Disk.Growing
import FileCourier.Proofs.Disk.Holding
import FileCourier.Proofs.Disk.Linkless
import FileCourier.Proofs.Disk.Listing
import FileCourier.Proofs.Disk.Lookup
import FileCourier.Proofs.Disk.Missing
import FileCourier.Proofs.Disk.Modes
import FileCourier.Proofs.Disk.Moving
import FileCourier.Proofs.Disk.Region
import FileCourier.Proofs.Disk.Removing
import FileCourier.Proofs.Disk.Site
import FileCourier.Proofs.Disk.Standing
import FileCourier.Proofs.Disk.Stood
import FileCourier.Proofs.Disk.Tidy
import FileCourier.Proofs.Disk.Walk
import FileCourier.Proofs.Download
import FileCourier.Proofs.FileTree
import FileCourier.Proofs.Frame
import FileCourier.Proofs.Gzip.Bits
import FileCourier.Proofs.Gzip.Deflater
import FileCourier.Proofs.Gzip.Extending
import FileCourier.Proofs.Gzip.Members
import FileCourier.Proofs.Gzip.Repetitions
import FileCourier.Proofs.Gzip.RoundTrip
import FileCourier.Proofs.Gzip.Tokens
import FileCourier.Proofs.Line
import FileCourier.Proofs.LocalRoots.Coherence
import FileCourier.Proofs.LocalRoots.Fetching
import FileCourier.Proofs.LocalRoots.Lookups
import FileCourier.Proofs.LocalRoots.Serving
import FileCourier.Proofs.MasterFiles.Accepted
import FileCourier.Proofs.MasterFiles.Closings
import FileCourier.Proofs.MasterFiles.Confined
import FileCourier.Proofs.MasterFiles.Endings
import FileCourier.Proofs.MasterFiles.Exchanges
import FileCourier.Proofs.MasterFiles.Filling
import FileCourier.Proofs.MasterFiles.Footprint
import FileCourier.Proofs.MasterFiles.Keeping
import FileCourier.Proofs.MasterFiles.Opening
import FileCourier.Proofs.MasterFiles.Placed
import FileCourier.Proofs.MasterFiles.Served
import FileCourier.Proofs.MasterFiles.Storing
import FileCourier.Proofs.MasterFiles.Tally
import FileCourier.Proofs.MasterLink
import FileCourier.Proofs.NodeClasses
import FileCourier.Proofs.Path.Combining
import FileCourier.Proofs.Path.Joining
import FileCourier.Proofs.Path.Lexical
import FileCourier.Proofs.Path.Names
import FileCourier.Proofs.Path.Reading
import FileCourier.Proofs.Path.Winding
import FileCourier.Proofs.Session
import FileCourier.Proofs.Settings
import FileCourier.Proofs.ShellWord
import FileCourier.Proofs.Sorting
import FileCourier.Proofs.Url
import FileCourier.Proofs.WebDiscard
import FileCourier.Proofs.WebFetch
import FileCourier.Proofs.WebVerdict
import FileCourier.Proofs.Wire.Canonical
import FileCourier.Proofs.Wire.RoundTrip
import FileCourier.Proofs.Wire.SelfDelimiting
import FileCourier.Proofs.Yaml
import FileCourier.Rehearsal.Beyond
import FileCourier.Rehearsal.Fixture
import FileCourier.Rehearsal.Script
import FileCourier.Rehearsal.ScriptedLine
import FileCourier.Rehearsal.ScriptedMaster
import FileCourier.Settings
import FileCourier.ShellWord
import FileCourier.Source
import FileCourier.Surroundings
import FileCourier.Url
import FileCourier.VirtualPath
import FileCourier.WebFetch
import FileCourier.Yaml
