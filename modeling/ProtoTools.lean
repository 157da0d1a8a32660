import ProtoTools.Lib.Machine
import ProtoTools.Dissection.Streaming
import ProtoTools.Dissection.HeaderSync
import ProtoTools.Dissection.WellFormed
import ProtoTools.Dissection.Cuts
import ProtoTools.Dissection.FixedSize
import ProtoTools.Dissection.Callback
import ProtoTools.Dissection.SelfDescribing
import ProtoTools.Dissection.ZeroSized
import ProtoTools.Dissection.RepeatedNames
import ProtoTools.Dissection.Exceptions
import ProtoTools.Dissection.Edits
import ProtoTools.Dissection.Resync
import ProtoTools.Dissection.Delivered
import ProtoTools.Dissection.Messages
import ProtoTools.Interpretation.Reads
import ProtoTools.Interpretation.Display
import ProtoTools.Interpretation.WarnOnce
import ProtoTools.RoundTrip
import ProtoTools.Services.RequestLoop
import ProtoTools.Services.SubscriberLoop
import ProtoTools.Services.CommandProgress
import ProtoTools.Services.Queries
import ProtoTools.Services.Registration
import ProtoTools.Services.DirectoryProgress
import ProtoTools.Services.DirectoryFeed
